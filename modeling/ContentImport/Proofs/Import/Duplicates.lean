import ContentImport.Proofs.Import.Overwriting
import ContentImport.Proofs.Import.References
import ContentImport.Proofs.Mapping.ContentType

/-!
Why a run fails once its source is open. Nothing that it writes can be refused for good, except for a
node: a store that does not overwrite ends the run at the first record whose uuid it has. Records
that it does not accept do not count.
-/

set_option autoImplicit false
set_option relaxedAutoImplicit false

namespace ContentImport

open ContentImport.Store

namespace Store

variable {s t : Store}

/-! ## Vocabularies -/

/-- Create the tags of a vocabulary that do not exist yet, each after the check of its
vocabulary. -/
def createTags (s : Store) (vocabularyId : String) (tags : List TagRecord) :
    Except StoreError Store :=
  tags.foldlM (fun s tag =>
    if (s.repository.tagId? vocabularyId tag.name).isSome then pure s
    else s.createTag vocabularyId tag.name) s

/-- Create vocabularies with their tags, up to the first refusal. -/
def createVocabularies (s : Store) (vocabularies : List VocabularyRecord) :
    Except StoreError Store :=
  vocabularies.foldlM (fun s v => do
    let s ← (s.createVocabulary v.vocabularyId v.name).createTags v.vocabularyId v.tags
    pure (s.setTagParents v.vocabularyId v.tagParents)) s

private theorem createTags_eq {vocabularyId : String} (tags : List TagRecord)
    (housed : Table.holds s.repository.vocabularies vocabularyId = true) :
    s.createTags vocabularyId tags = .ok (s.addTags vocabularyId tags) := by
  unfold createTags addTags
  induction tags generalizing s with
  | nil => rfl
  | cons tag tags ih =>
    rw [List.foldlM_cons, List.foldl_cons]
    split
    · exact ih housed
    · rw [createTag_eq tag.name housed]
      refine ih ?_
      rw [addTag_vocabularies]
      exact housed

theorem createVocabularies_eq (vocabularies : List VocabularyRecord) :
    s.createVocabularies vocabularies = .ok (s.importVocabularies vocabularies) := by
  unfold createVocabularies importVocabularies
  induction vocabularies generalizing s with
  | nil => rfl
  | cons v vocabularies ih =>
    rw [List.foldlM_cons, List.foldl_cons, createTags_eq v.tags (createVocabulary_holds s _ _)]
    exact ih

/-! ## Nodes -/

/-- A record with a title whose uuid is that of a stored node or of a record that was accepted. -/
def IsDuplicate (r : Repository) (accepted : List (NodeRecord × CreatedNode)) (n : NodeRecord) :
    Prop :=
  n.title ≠ "" ∧
    ((∃ e ∈ r.nodes, e.2.uuid = n.uuid) ∨ ∃ a ∈ accepted, a.1.uuid = n.uuid)

def IsFirstDuplicate (r : Repository) (s : Store) (records : List NodeRecord) (n : NodeRecord) :
    Prop :=
  ∃ before after, records = before ++ n :: after ∧ IsDuplicate r (s.accepted before) n ∧
    ∀ sooner m rest, before = sooner ++ m :: rest → ¬ IsDuplicate r (s.accepted sooner) m

private theorem isDuplicate_congr {r r' : Repository} (nodes : r.nodes = r'.nodes) :
    IsDuplicate r = IsDuplicate r' := by
  funext accepted n
  rw [IsDuplicate, IsDuplicate, nodes]

private theorem isDuplicate_nil {n : NodeRecord} :
    IsDuplicate s.repository [] n ↔
      n.title ≠ "" ∧ (s.repository.nodeByUuid? n.uuid).isSome = true := by
  simp [IsDuplicate, Repository.nodeByUuid?]

private theorem WellFormed.createNode_keeps (wf : s.WellFormed) (keeps : s.overwrite = false)
    {n : NodeRecord} (free : ¬ IsDuplicate s.repository [] n) :
    (∃ e, s.createNode n = (.error e, s) ∧ e.isFatal = false) ∨
      ∃ created t values, s.createNode n = (.ok created, t) ∧
        t.repository.nodes =
          s.repository.nodes ++ [(created.id, ⟨n.uuid, n.title, n.bundle, values⟩)] := by
  rw [isDuplicate_nil] at free
  by_cases titled : n.title = ""
  · rw [createNode_eq, if_pos titled]
    exact .inl ⟨_, rfl, rfl⟩
  · have missing : (s.repository.nodeByUuid? n.uuid).isSome = false := by simpa [titled] using free
    have absent := Option.isSome_eq_false_iff.mp missing
    have discarded : s.discard n.uuid = s := by
      rw [discard, Option.isNone_iff_eq_none.mp absent]
    cases outcome : s.createNode n with
    | mk result t =>
      cases result with
      | ok created =>
        obtain ⟨-, -, values, nodes⟩ := wf.createNode_ok outcome
        rw [discarded] at nodes
        exact .inr ⟨created, t, values, rfl, nodes⟩
      | error e =>
        refine .inl ⟨e, ?_, ?_⟩
        · rcases createNode_error outcome with rfl | rfl
          · rfl
          · rw [discarded]
        · rw [createNode_eq, if_neg titled, missing] at outcome
          cases known : s.bundleFields n.bundle with
          | error e' =>
            simp only [known] at outcome
            obtain rfl := Except.error.inj (Prod.mk.inj outcome).1
            rw [bundleFields_error known]
            rfl
          | ok accepted =>
            simp only [known] at outcome
            cases (Prod.mk.inj outcome).1

private theorem createNode_duplicate (keeps : s.overwrite = false) {n : NodeRecord}
    (duplicate : IsDuplicate s.repository [] n) :
    s.createNode n = (.error (.duplicateNode n.uuid), s) := by
  obtain ⟨titled, there⟩ := isDuplicate_nil.mp duplicate
  rw [createNode_eq, if_neg titled, if_pos (by simp [there, keeps])]

private theorem WellFormed.isDuplicate_cons (wf : s.WellFormed) (keeps : s.overwrite = false)
    {n m : NodeRecord} {before : List NodeRecord} (free : ¬ IsDuplicate s.repository [] n) :
    IsDuplicate s.repository (s.accepted (n :: before)) m ↔
      IsDuplicate (s.createNode n).2.repository ((s.createNode n).2.accepted before) m := by
  rcases wf.createNode_keeps keeps free with ⟨e, refused, -⟩ | ⟨created, t, values, stored, nodes⟩
  · rw [Store.accepted, refused]
  · rw [Store.accepted, stored, IsDuplicate, IsDuplicate, nodes]
    simp only [List.mem_append, List.mem_cons, List.not_mem_nil, or_and_right, exists_or,
      exists_eq_left, false_and, exists_false, false_or, or_assoc]

private theorem WellFormed.isFirstDuplicate_cons (wf : s.WellFormed) (keeps : s.overwrite = false)
    {n m : NodeRecord} {records : List NodeRecord} (free : ¬ IsDuplicate s.repository [] n)
    (later : IsFirstDuplicate (s.createNode n).2.repository (s.createNode n).2 records m) :
    IsFirstDuplicate s.repository s (n :: records) m := by
  obtain ⟨before, after, rfl, duplicate, first⟩ := later
  refine ⟨n :: before, after, rfl, (wf.isDuplicate_cons keeps free).mpr duplicate, ?_⟩
  intro sooner other rest parts
  cases sooner with
  | nil =>
    obtain ⟨rfl, -⟩ := List.cons.inj parts
    exact free
  | cons head sooner =>
    obtain ⟨rfl, tail⟩ := List.cons.inj parts
    exact (wf.isDuplicate_cons keeps free).not.mpr (first sooner other rest tail)

end Store

namespace Progress

private theorem storeNode_free {p : Progress} (wf : p.store.WellFormed)
    (keeps : p.store.overwrite = false) {n : NodeRecord}
    (free : ¬ IsDuplicate p.store.repository [] n) : (p.storeNode n).1 = none := by
  unfold storeNode
  rcases wf.createNode_keeps keeps free with ⟨e, refused, single⟩ | ⟨created, t, values, stored, -⟩
  · simp only [refused, single, Bool.false_eq_true, if_false]
  · rw [stored]

private theorem storeNodes_cons_duplicate {p : Progress} (keeps : p.store.overwrite = false)
    {entry : Noted (Option NodeRecord)} {n : NodeRecord} (present : entry.value = some n)
    (duplicate : IsDuplicate p.store.repository [] n) (entries : List (Noted (Option NodeRecord))) :
    (p.storeNodes (entry :: entries)).1 = some (.duplicateNode n.uuid) := by
  have refused : (p.noting entry).store.createNode n = (.error (.duplicateNode n.uuid), p.store) :=
    createNode_duplicate keeps duplicate
  have failed : ((p.noting entry).storeNode n).1 = some (.duplicateNode n.uuid) := by
    rw [storeNode, refused]
    rfl
  rw [storeNodes_cons_some p present]
  split
  · next stopped =>
    rw [stopped] at failed
    exact failed
  · next passed =>
    rw [passed] at failed
    cases failed

private theorem storeNodes_outcome {p : Progress} (wf : p.store.WellFormed)
    (keeps : p.store.overwrite = false) (entries : List (Noted (Option NodeRecord))) :
    (∀ e, (p.storeNodes entries).1 = some e →
        ∃ n, IsFirstDuplicate p.store.repository p.store (entries.filterMap (·.value)) n ∧
          e = .duplicateNode n.uuid) ∧
      ((p.storeNodes entries).1 = none →
        ∀ before n after, entries.filterMap (·.value) = before ++ n :: after →
          ¬ IsDuplicate p.store.repository (p.store.accepted before) n) := by
  induction entries generalizing p with
  | nil =>
    refine ⟨fun e failed => (by cases failed), ?_⟩
    intro _ before n after parts
    simp at parts
  | cons entry entries ih =>
    cases present : entry.value with
    | none =>
      rw [storeNodes_cons_none p present, List.filterMap_cons_none present]
      exact ih (p := p.noting entry) wf keeps
    | some n =>
      rw [List.filterMap_cons_some present]
      by_cases free : IsDuplicate p.store.repository [] n
      · rw [storeNodes_cons_duplicate keeps present free]
        refine ⟨?_, fun passed => (by cases passed)⟩
        rintro e ⟨⟩
        refine ⟨n, ⟨[], _, rfl, free, ?_⟩, rfl⟩
        intro sooner m rest parts
        simp at parts
      · have passed := storeNode_free (p := p.noting entry) wf keeps free
        have step := (p.noting entry).storeNode_edits wf n
        obtain ⟨fails, passes⟩ := ih (wf.edits step) ((wf.grows step).overwrite.trans keeps)
        rw [storeNode_store] at fails passes
        rw [storeNodes_cons_passed p present passed]
        constructor
        · intro e failed
          obtain ⟨m, later, named⟩ := fails e failed
          exact ⟨m, wf.isFirstDuplicate_cons keeps free later, named⟩
        · intro done before m after parts
          cases before with
          | nil =>
            obtain ⟨rfl, -⟩ := List.cons.inj parts
            exact free
          | cons head before =>
            obtain ⟨rfl, tail⟩ := List.cons.inj parts
            exact (wf.isDuplicate_cons keeps free).not.mpr (passes done before m after tail)

end Progress

/-! ## Runs -/

namespace ImportSource

private theorem value_nodeRecords (source : ImportSource) :
    source.nodeRecords.value = source.nodeEntries.filterMap (·.value) := by
  simp [nodeRecords, List.filterMap_map]

private theorem not_isDuplicate_of_ontology (source : Mapping.Source) {r : Repository} {s : Store}
    (bare : r.nodes = []) {before after : List NodeRecord} {n : NodeRecord}
    (parts : (ontology source).nodeRecords.value = before ++ n :: after) :
    ¬ IsDuplicate r (s.accepted before) n := by
  rintro ⟨-, ⟨e, stored, -⟩ | ⟨a, accepted, same⟩⟩
  · rw [bare] at stored
    cases stored
  · have distinct : ((before ++ n :: after).map (·.uuid)).Nodup := by
      rw [← parts, value_nodeRecords]
      exact source.nodup_uuids
    have sooner : a.1 ∈ before := mem_of_mem_accepted accepted
    rw [List.map_append, List.nodup_append] at distinct
    exact distinct.2.2 _ (List.mem_map_of_mem sooner) _ (by simp) same

variable {s : Store} {settings : ImportSettings} {source : ImportSource}

private theorem runSource_error_iff {e : ImportError} :
    (runSource settings source s).1 = .error e ↔
      ∃ cause, (source.unresolved settings s).1 = some cause ∧ e = .store cause := by
  rw [runSource_eq]
  generalize source.unresolved settings s = outcome
  obtain ⟨failure, p⟩ := outcome
  cases failure with
  | none => simp
  | some cause => simp [eq_comm]

private theorem unresolved_outcome (wf : s.WellFormed) (keeps : s.overwrite = false)
    (wanted : settings.importNodes = true) :
    let tagged := s.importVocabularies (source.vocabulariesFor settings)
    (∀ cause, (source.unresolved settings s).1 = some cause →
        ∃ n, IsFirstDuplicate s.repository tagged source.nodeRecords.value n ∧
          cause = .duplicateNode n.uuid) ∧
      ((source.unresolved settings s).1 = none →
        ∀ before n after, source.nodeRecords.value = before ++ n :: after →
          ¬ IsDuplicate s.repository (tagged.accepted before) n) := by
  have tagged := source.tagged_edits settings s
  have still : (source.tagged settings s).store.overwrite = false := by
    rw [(wf.grows tagged).overwrite, keeps]
  have outcome := Progress.storeNodes_outcome (wf.edits tagged) still (source.entriesFor settings)
  have entries : source.entriesFor settings = source.nodeEntries := by
    rw [entriesFor, if_pos wanted]
  have same := isDuplicate_congr (tagged_nodes wf settings source)
  unfold IsFirstDuplicate at outcome
  rw [same, entries, ← value_nodeRecords] at outcome
  unfold unresolved
  rw [entries]
  exact outcome

private theorem unresolved_of_unwanted (unwanted : settings.importNodes = false) :
    (source.unresolved settings s).1 = none := by
  have entries : source.entriesFor settings = [] := by simp [entriesFor, unwanted]
  rw [unresolved, entries]
  rfl

end ImportSource

/-- Once a source is open, a run fails exactly when the store does not overwrite, nodes are imported
and one of the records that have a title has the uuid of a stored node or of a record before it that
the store accepted. The error names the uuid of the first such record. No vocabulary is refused, no
run with overwriting fails, and no ontology fails in a store without nodes. -/
theorem runImport_fails_iff {s : Store} {settings : ImportSettings} {path : String}
    {content : PathContent} {source : ImportSource} (reachable : Reachable s)
    (opened : openSource settings path content = .ok source) :
    let tagged := s.importVocabularies (source.vocabulariesFor settings)
    let records := source.nodeRecords.value
    let outcome := (runImport settings path content s).1
    s.createVocabularies (source.vocabulariesFor settings) = .ok tagged ∧
      (outcome.isOk = false ↔ s.overwrite = false ∧ settings.importNodes = true ∧
        ∃ before n after, records = before ++ n :: after ∧
          IsDuplicate s.repository (tagged.accepted before) n) ∧
      (∀ e, outcome = .error e → ∃ n, IsFirstDuplicate s.repository tagged records n ∧
        e = .store (.duplicateNode n.uuid)) ∧
      (s.overwrite = true → outcome.isOk = true) ∧
      ∀ ontology, source = .ontology ontology → s.repository.nodes = [] →
        outcome.isOk = true := by
  intro tagged records outcome
  have wf := reachable.sound.wellFormed
  have run : outcome = (runSource settings source s).1 := by
    simp only [outcome, runImport, opened]
  rw [run, runSource_isOk_eq]
  have fails : (source.unresolved settings s).1.isNone = false → s.overwrite = false ∧
      settings.importNodes = true ∧ ∃ n cause, (source.unresolved settings s).1 = some cause ∧
        IsFirstDuplicate s.repository tagged records n ∧ cause = .duplicateNode n.uuid := by
    intro failed
    have keeps : s.overwrite = false := by
      refine Bool.eq_false_iff.mpr fun overwrites => ?_
      rw [source.unresolved_passes settings wf overwrites] at failed
      cases failed
    have wanted : settings.importNodes = true := by
      refine Bool.eq_true_of_not_eq_false fun unwanted => ?_
      rw [ImportSource.unresolved_of_unwanted unwanted] at failed
      cases failed
    obtain ⟨cause, stopped⟩ := Option.isNone_eq_false_iff.mp failed |> Option.isSome_iff_exists.mp
    obtain ⟨n, first, named⟩ := (source.unresolved_outcome wf keeps wanted).1 cause stopped
    exact ⟨keeps, wanted, n, cause, stopped, first, named⟩
  refine ⟨createVocabularies_eq _, ⟨?_, ?_⟩, ?_, ?_, ?_⟩
  · intro failed
    obtain ⟨keeps, wanted, n, -, -, ⟨before, after, parts, duplicate, -⟩, -⟩ := fails failed
    exact ⟨keeps, wanted, before, n, after, parts, duplicate⟩
  · rintro ⟨keeps, wanted, before, n, after, parts, duplicate⟩
    refine Bool.eq_false_iff.mpr fun passed => ?_
    have done := Option.isNone_iff_eq_none.mp passed
    exact (source.unresolved_outcome wf keeps wanted).2 done before n after parts duplicate
  · intro e failed
    obtain ⟨cause, stopped, rfl⟩ := ImportSource.runSource_error_iff.mp failed
    obtain ⟨-, -, n, other, same, first, rfl⟩ := fails (by simp [stopped])
    rw [stopped] at same
    obtain rfl := Option.some.inj same
    exact ⟨n, first, rfl⟩
  · intro overwrites
    rw [source.unresolved_passes settings wf overwrites]
    rfl
  · rintro ontology rfl bare
    refine Bool.eq_true_of_not_eq_false fun failed => ?_
    obtain ⟨-, -, n, -, -, ⟨before, after, parts, duplicate, -⟩, -⟩ := fails failed
    exact ImportSource.not_isDuplicate_of_ontology ontology bare parts duplicate

/-- A document that has an apple four times: as a stone, as a fruit, without a title, and once
more. -/
def repeatedFruit : PathContent :=
  .file ("\x7b\"nodes\":[\x7b\"title\":\"Apple\",\"type\":\"stone\",\"uuid\":\"apple\"\x7d," ++
    "\x7b\"title\":\"Apple\",\"type\":\"fruit\",\"uuid\":\"apple\"\x7d," ++
    "\x7b\"title\":\"\",\"type\":\"fruit\",\"uuid\":\"apple\"\x7d," ++
    "\x7b\"title\":\"Again\",\"type\":\"fruit\",\"uuid\":\"apple\"\x7d]\x7d").toUTF8.toList

theorem runImport_fails_iff_repeatedFruit :
    let s := Store.empty false [("fruit", [])]
    let outcome := (runImport .standard "fruit.json" repeatedFruit s).1
    outcome = .error (.store (.duplicateNode "apple")) ∧ ∃ source n,
      openSource .standard "fruit.json" repeatedFruit = .ok source ∧ n.uuid = "apple" ∧
        IsFirstDuplicate s.repository (s.importVocabularies (source.vocabulariesFor .standard))
          source.nodeRecords.value n := by
  intro s outcome
  have run : ((openSource .standard "fruit.json" repeatedFruit).isOk, outcome) =
      (true, .error (.store (.duplicateNode "apple"))) := by decide +kernel
  obtain ⟨readable, failed⟩ := Prod.mk.inj run
  refine ⟨failed, ?_⟩
  cases opened : openSource .standard "fruit.json" repeatedFruit with
  | error e =>
    rw [opened] at readable
    cases readable
  | ok source =>
    have reachable : Reachable s := .empty false [("fruit", [])]
    obtain ⟨n, first, named⟩ := (runImport_fails_iff reachable opened).2.2.1 _ failed
    have same : n.uuid = "apple" := (StoreError.duplicateNode.inj (ImportError.store.inj named)).symm
    exact ⟨source, n, rfl, same, first⟩

end ContentImport
