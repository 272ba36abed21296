import ContentImport.Import
import ContentImport.Proofs.Store.Outside

/-!
The phases of a run. Vocabularies and nodes are written by operations of the store, so a run leads
from reachable stores to reachable ones; up to its references a run is a sequence of edits within
the vocabularies and the uuids of its records.
-/

set_option autoImplicit false
set_option relaxedAutoImplicit false

namespace ContentImport

open ContentImport.Store

namespace Store

variable {scope : Scope} {s : Store}

/-! ## Vocabularies -/

theorem addTags_edits (s : Store) {vocabularyId : String} (tags : List TagRecord)
    (within : scope.vocabularies vocabularyId = true)
    (housed : Table.holds s.repository.vocabularies vocabularyId = true) :
    Edits scope s (s.addTags vocabularyId tags) := by
  unfold addTags
  induction tags generalizing s with
  | nil => exact .refl
  | cons tag tags ih =>
    rw [List.foldl_cons]
    split
    · exact ih s housed
    · exact (addTag_edits s tag.name within housed).trans (ih _ (by simpa using housed))

theorem importVocabulary_edits (s : Store) {v : VocabularyRecord}
    (within : scope.vocabularies v.vocabularyId = true) : Edits scope s (s.importVocabulary v) :=
  ((createVocabulary_edits s v.name within).trans
    (addTags_edits _ v.tags within (createVocabulary_holds s _ _))).trans
    (setTagParents_edits _ v.tagParents within)

theorem importVocabularies_edits (s : Store) (vocabularies : List VocabularyRecord)
    (within : ∀ v ∈ vocabularies, scope.vocabularies v.vocabularyId = true) :
    Edits scope s (s.importVocabularies vocabularies) := by
  unfold importVocabularies
  induction vocabularies generalizing s with
  | nil => exact .refl
  | cons v vocabularies ih =>
    obtain ⟨first, others⟩ := List.forall_mem_cons.mp within
    exact (importVocabulary_edits s first).trans (ih _ others)

namespace Reachable

private theorem addTags (reachable : Reachable s) {vocabularyId : String} (tags : List TagRecord)
    (housed : Table.holds s.repository.vocabularies vocabularyId = true) :
    Reachable (s.addTags vocabularyId tags) := by
  unfold Store.addTags
  induction tags generalizing s with
  | nil => exact reachable
  | cons tag tags ih =>
    rw [List.foldl_cons]
    split
    · exact ih reachable housed
    · have created := reachable.operation (.createTag vocabularyId tag.name)
      have same : (Operation.createTag vocabularyId tag.name).apply s =
          s.addTag vocabularyId tag.name := by
        simp only [Operation.apply, createTag_eq tag.name housed]
      exact ih (same ▸ created) (by simpa using housed)

theorem importVocabularies (reachable : Reachable s) (vocabularies : List VocabularyRecord) :
    Reachable (s.importVocabularies vocabularies) := by
  unfold Store.importVocabularies
  induction vocabularies generalizing s with
  | nil => exact reachable
  | cons v vocabularies ih =>
    have created := reachable.operation (.createVocabulary v.vocabularyId v.name)
    have tagged := created.addTags v.tags (createVocabulary_holds s _ _)
    exact ih (tagged.operation (.setTagParents v.vocabularyId v.tagParents))

end Reachable

end Store

/-! ## Nodes -/

theorem mem_splitDeferred_kept {n : NodeRecord} {created : CreatedNode}
    {d : DeferredReference} (member : d ∈ splitDeferred n created) :
    d.owningNode = created.id ∧ ∃ f ∈ n.fields, f.fieldName = d.fieldName ∧
      f.fieldName ∉ created.skippedFields ∧ f.deferredTargets? = some d.targets := by
  obtain ⟨f, held, split⟩ := List.mem_filterMap.mp member
  simp only [Option.bind_eq_bind, Option.bind_eq_some_iff, Option.pure_def, Option.some.injEq]
    at split
  obtain ⟨targets, deferred, kind, references, rfl⟩ := split
  obtain ⟨listed, kept⟩ := List.mem_filter.mp held
  exact ⟨rfl, f, listed, rfl, by simpa using kept, deferred⟩

theorem mem_splitDeferred {n : NodeRecord} {created : CreatedNode}
    {d : DeferredReference} (member : d ∈ splitDeferred n created) :
    d.owningNode = created.id ∧ ∃ f ∈ n.fields, f.fieldName = d.fieldName ∧
      f.deferredTargets? = some d.targets := by
  obtain ⟨owned, f, listed, named, -, deferred⟩ := mem_splitDeferred_kept member
  exact ⟨owned, f, listed, named, deferred⟩

theorem value_of_deferred {f : FieldRecord} {targets : List FieldItem}
    (deferred : f.deferredTargets? = some targets) : f.value = .references targets := by
  unfold FieldRecord.deferredTargets? at deferred
  split at deferred
  · next items kind value _ =>
    split at deferred
    · rw [value, Option.some.inj deferred]
    · cases deferred
  · cases deferred

theorem references_of_deferred {f : FieldRecord} {targets : List FieldItem}
    (deferred : f.deferredTargets? = some targets) : ∃ kind, f.references = some kind := by
  unfold FieldRecord.deferredTargets? at deferred
  split at deferred
  · next kind _ references => exact ⟨kind, references⟩
  · cases deferred

theorem exists_mem_splitDeferred {n : NodeRecord} {created : CreatedNode} {f : FieldRecord}
    (member : f ∈ n.fields) (waits : f.deferredTargets?.isSome = true)
    (kept : f.fieldName ∉ created.skippedFields) :
    ∃ d ∈ splitDeferred n created, d.owningNode = created.id ∧ d.fieldName = f.fieldName := by
  obtain ⟨targets, deferred⟩ := Option.isSome_iff_exists.mp waits
  obtain ⟨kind, references⟩ := references_of_deferred deferred
  refine ⟨⟨created.id, f.fieldName, kind, targets⟩, ?_, rfl, rfl⟩
  refine List.mem_filterMap.mpr ⟨f, List.mem_filter.mpr ⟨member, by simpa using kept⟩, ?_⟩
  simp [deferred, references]

namespace Progress

variable {scope : Scope}

@[simp] theorem storeNode_store (p : Progress) (n : NodeRecord) :
    (p.storeNode n).2.store = (p.store.createNode n).2 := by
  unfold storeNode
  split
  · next created => rw [created]
  · next refused =>
    rw [refused]
    simp only
    split <;> rfl

theorem storeNode_edits (p : Progress) (wf : p.store.WellFormed) (n : NodeRecord) :
    Edits .everything p.store (p.storeNode n).2.store := by
  rw [storeNode_store]
  exact wf.createNode_everything n

def noting (p : Progress) (entry : Noted (Option NodeRecord)) : Progress :=
  { p with warnings := p.warnings.warnAll entry.messages }

theorem storeNodes_cons_none (p : Progress) {entry : Noted (Option NodeRecord)}
    (absent : entry.value = none) (entries : List (Noted (Option NodeRecord))) :
    p.storeNodes (entry :: entries) = (p.noting entry).storeNodes entries := by
  rw [storeNodes]
  simp only [absent]
  rfl

theorem storeNodes_cons_some (p : Progress) {entry : Noted (Option NodeRecord)} {n : NodeRecord}
    (present : entry.value = some n) (entries : List (Noted (Option NodeRecord))) :
    p.storeNodes (entry :: entries) =
      match (p.noting entry).storeNode n with
      | (some e, p) => (some e, p)
      | (none, p) => p.storeNodes entries := by
  rw [storeNodes]
  simp only [present]
  rfl

/-- What writing each of the nodes keeps of a store, writing all of them keeps. -/
theorem storeNodes_induction {motive : Store → Prop} (entries : List (Noted (Option NodeRecord)))
    (step : ∀ n ∈ entries.filterMap (·.value), ∀ s, motive s → motive (s.createNode n).2)
    (p : Progress) (start : motive p.store) : motive (p.storeNodes entries).2.store := by
  induction entries generalizing p with
  | nil => exact start
  | cons entry entries ih =>
    cases present : entry.value with
    | none =>
      rw [List.filterMap_cons_none present] at step
      rw [storeNodes_cons_none p present]
      exact ih step _ start
    | some n =>
      rw [List.filterMap_cons_some present] at step
      obtain ⟨first, others⟩ := List.forall_mem_cons.mp step
      have stored : motive ((p.noting entry).storeNode n).2.store := by
        rw [storeNode_store]
        exact first _ start
      rw [storeNodes_cons_some p present]
      split
      · next failed =>
        rw [failed] at stored
        exact stored
      · next passed =>
        rw [passed] at stored
        exact ih others _ stored

theorem storeNodes_edits (p : Progress) (wf : p.store.WellFormed)
    (entries : List (Noted (Option NodeRecord)))
    (within : ∀ n ∈ entries.filterMap (·.value), n.title ≠ "" → scope.uuids n.uuid = true) :
    Edits scope p.store (p.storeNodes entries).2.store := by
  refine storeNodes_induction entries ?_ p .refl
  intro n member s before
  exact before.trans (createNode_edits (wf.edits before) n (within n member))

private theorem storeNodes_reachable (p : Progress) (reachable : Reachable p.store)
    (entries : List (Noted (Option NodeRecord))) :
    Reachable (p.storeNodes entries).2.store := by
  refine storeNodes_induction entries ?_ p reachable
  exact fun n _ s before => before.operation (.createNode n)

end Progress

/-! ## Runs -/

namespace ImportSource

def vocabulariesFor (settings : ImportSettings) (source : ImportSource) : List VocabularyRecord :=
  if settings.importVocabularies then source.vocabularyRecords else []

def entriesFor (settings : ImportSettings) (source : ImportSource) :
    List (Noted (Option NodeRecord)) :=
  if settings.importNodes then source.nodeEntries else []

def recordsFor (settings : ImportSettings) (source : ImportSource) : List NodeRecord :=
  (source.entriesFor settings).filterMap (·.value)

def tagged (settings : ImportSettings) (source : ImportSource) (store : Store) : Progress :=
  ⟨store.importVocabularies (source.vocabulariesFor settings), [],
    Warnings.empty.warnAll source.notices⟩

/-- How far a run has come before it writes references. -/
def unresolved (settings : ImportSettings) (source : ImportSource) (store : Store) :
    Option StoreError × Progress :=
  (source.tagged settings store).storeNodes (source.entriesFor settings)

theorem tagged_edits (settings : ImportSettings) (source : ImportSource) (s : Store) :
    Edits .everything s (source.tagged settings s).store :=
  importVocabularies_edits s _ fun _ _ => rfl

theorem tagged_nodes {s : Store} (wf : s.WellFormed) (settings : ImportSettings)
    (source : ImportSource) :
    (source.tagged settings s).store.repository.nodes = s.repository.nodes := by
  have steps : Edits ⟨fun _ => true, fun _ => false⟩ s (source.tagged settings s).store :=
    importVocabularies_edits s _ fun _ _ => rfl
  have nodes := (wf.outside_edits steps).nodes
  simpa [Repository.nodesOutside] using nodes

end ImportSource

private theorem write_eq (settings : ImportSettings) (source : ImportSource) (store : Store) :
    Progress.write settings source
        { Progress.start store with warnings := Warnings.empty.warnAll source.notices } =
      match source.unresolved settings store with
      | (none, p) => (none, p.resolve.2)
      | failed => failed := by
  unfold Progress.write ImportSource.unresolved ImportSource.tagged ImportSource.vocabulariesFor
    ImportSource.entriesFor
  split <;> split <;> rfl

/-- A run writes references and commits, or rolls back. -/
theorem runSource_eq (settings : ImportSettings) (source : ImportSource) (store : Store) :
    runSource settings source store =
      match source.unresolved settings store with
      | (some e, p) => (.error (.store e), p.store.rollback)
      | (none, p) => (.ok (p.resolve.2.summary source), p.resolve.2.store.commit) := by
  unfold runSource
  simp only [write_eq]
  obtain ⟨failure, p⟩ := source.unresolved settings store
  cases failure <;> rfl

theorem runSource_isOk_eq (settings : ImportSettings) (source : ImportSource) (store : Store) :
    (runSource settings source store).1.isOk = (source.unresolved settings store).1.isNone := by
  rw [runSource_eq]
  generalize source.unresolved settings store = outcome
  obtain ⟨failure, p⟩ := outcome
  cases failure <;> rfl

theorem Store.Reachable.runImport {s : Store} (reachable : Reachable s) (settings : ImportSettings)
    (path : String) (content : PathContent) :
    Reachable (ContentImport.runImport settings path content s).2 := by
  unfold ContentImport.runImport
  split
  · exact reachable
  · next source opened =>
    have stored : Reachable (source.unresolved settings s).2.store :=
      Progress.storeNodes_reachable _ (reachable.importVocabularies _) _
    rw [runSource_eq]
    split
    · next failed =>
      rw [failed] at stored
      exact stored.operation .rollback
    · next p passed =>
      rw [passed] at stored
      let writes := p.pending.map p.store.resolveReference
      exact (stored.operation (.insertReferences writes)).operation .commit

/-- Where a run writes: in the vocabularies of its records, and at the uuids of those that have a
title. -/
def ImportSource.scope (settings : ImportSettings) (source : ImportSource) : Scope where
  vocabularies id := (source.vocabulariesFor settings).any (·.vocabularyId = id)
  uuids uuid := (source.recordsFor settings).any fun n => n.title ≠ "" && n.uuid = uuid

theorem ImportSource.unresolved_edits {s : Store} (wf : s.WellFormed) (settings : ImportSettings)
    (source : ImportSource) :
    Edits (source.scope settings) s (source.unresolved settings s).2.store := by
  have vocabularies : Edits (source.scope settings) s
      (s.importVocabularies (source.vocabulariesFor settings)) :=
    importVocabularies_edits s _ fun v member => List.any_eq_true.mpr ⟨v, member, by simp⟩
  refine vocabularies.trans ?_
  refine (source.tagged settings s).storeNodes_edits (wf.edits vocabularies) _ ?_
  exact fun n member titled => List.any_eq_true.mpr ⟨n, member, by simp [titled]⟩

end ContentImport
