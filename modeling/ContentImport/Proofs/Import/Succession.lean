import ContentImport.Proofs.Import.Repetition
import ContentImport.Proofs.Store.Outlasting
import Mathlib.Data.List.ReduceOption

/-!
Imports one after the other. A reference is resolved to a node of its run or to a tag, so it leads to
what is stored when its run ends. A later run that overwrites replaces the nodes and the vocabularies
of its own records under new numbers, and then references to the old ones lead nowhere; all others
outlast it.
-/

set_option autoImplicit false
set_option relaxedAutoImplicit false

namespace ContentImport

open ContentImport.Store

variable {s t : Store} {mark : EntityId}

/-! ## What a run replaces -/

namespace Store

private theorem WellFormed.createNode_renews (wf : s.WellFormed) (overwrites : s.overwrite = true)
    {n : NodeRecord} (titled : n.title ≠ "") {e : EntityId × StoredNode}
    (stored : e ∈ (s.createNode n).2.repository.nodes) (same : e.2.uuid = n.uuid) :
    s.lastId < e.1 := by
  have gone := Repository.nodeByUuid?_eq_none_iff.mp (wf.nodeByUuid?_discard n.uuid)
  cases outcome : s.createNode n with
  | mk result t =>
    rw [outcome] at stored
    cases result with
    | ok created =>
      obtain ⟨behind, -, values, nodes⟩ := wf.createNode_ok outcome
      rw [nodes] at stored
      rcases List.mem_append.mp stored with old | new
      · exact absurd same (gone e old)
      · rw [List.mem_singleton.mp new]
        exact behind
    | error refusal =>
      rw [createNode_overwriting overwrites titled] at outcome
      cases known : s.bundleFields n.bundle with
      | error e' =>
        rw [known] at outcome
        obtain rfl := (Prod.mk.inj outcome).2
        exact absurd same (gone e stored)
      | ok accepted =>
        rw [known] at outcome
        cases (Prod.mk.inj outcome).1

private theorem Journal.importVocabulary_renews (journal : Journal mark s) (wf : s.WellFormed)
    (overwrites : s.overwrite = true) (v : VocabularyRecord) {e : EntityId × StoredTag}
    (stored : e ∈ (s.importVocabulary v).repository.tags) (old : e.1 ≤ mark) :
    e.2.vocabularyId ≠ v.vocabularyId := by
  have created : Edits .everything s (s.createVocabulary v.vocabularyId v.name) :=
    createVocabulary_edits s v.name rfl
  have rest : Edits .everything (s.createVocabulary v.vocabularyId v.name)
      (s.importVocabulary v) :=
    (addTags_edits _ v.tags rfl (createVocabulary_holds s _ _)).trans
      (setTagParents_edits _ v.tagParents rfl)
  obtain ⟨tag, before, same⟩ :=
    (journal.edits wf created).older_tag (wf.edits created) rest stored old
  rw [wf.createVocabulary_tags overwrites] at before
  rw [← same]
  exact of_decide_eq_true (List.mem_filter.mp before).2

private theorem Journal.importVocabularies_renews (journal : Journal mark s) (wf : s.WellFormed)
    (overwrites : s.overwrite = true) {vocabularies : List VocabularyRecord} {v : VocabularyRecord}
    (member : v ∈ vocabularies) {e : EntityId × StoredTag}
    (stored : e ∈ (s.importVocabularies vocabularies).repository.tags) (old : e.1 ≤ mark) :
    e.2.vocabularyId ≠ v.vocabularyId := by
  induction vocabularies generalizing s with
  | nil => cases member
  | cons first vocabularies ih =>
    have step : Edits .everything s (s.importVocabulary first) := importVocabulary_edits s rfl
    have rest : Edits .everything (s.importVocabulary first)
        (s.importVocabularies (first :: vocabularies)) :=
      importVocabularies_edits _ vocabularies fun _ _ => rfl
    have journal' := journal.edits wf step
    have wf' := wf.edits step
    rcases List.mem_cons.mp member with rfl | later
    · obtain ⟨tag, before, same⟩ := journal'.older_tag wf' rest stored old
      rw [← same]
      exact journal.importVocabulary_renews wf overwrites v before old
    · exact ih journal' wf' ((wf.grows step).overwrite.trans overwrites) later stored

end Store

private theorem Progress.storeNodes_renews {p : Progress} (journal : Journal mark p.store)
    (wf : p.store.WellFormed) (overwrites : p.store.overwrite = true)
    {entries : List (Noted (Option NodeRecord))} {n : NodeRecord}
    (member : n ∈ entries.filterMap (·.value)) (titled : n.title ≠ "") {e : EntityId × StoredNode}
    (stored : e ∈ (p.storeNodes entries).2.store.repository.nodes) (old : e.1 ≤ mark) :
    e.2.uuid ≠ n.uuid := by
  induction entries generalizing p with
  | nil => cases member
  | cons entry entries ih =>
    cases present : entry.value with
    | none =>
      rw [storeNodes_cons_none p present] at stored
      rw [List.filterMap_cons_none present] at member
      exact ih (p := p.noting entry) journal wf overwrites member stored
    | some first =>
      rw [List.filterMap_cons_some present] at member
      have passed := storeNode_passes (p := p.noting entry) overwrites first
      rw [storeNodes_cons_passed p present passed] at stored
      have step := (p.noting entry).storeNode_edits wf first
      have journal' := journal.edits wf step
      have wf' := wf.edits step
      rcases List.mem_cons.mp member with rfl | later
      · have rest : Edits .everything ((p.noting entry).storeNode n).2.store
            (((p.noting entry).storeNode n).2.storeNodes entries).2.store :=
          storeNodes_edits _ wf' entries fun _ _ _ => rfl
        obtain ⟨node, before, uuids⟩ := journal'.older_node wf' rest stored old
        intro equal
        rw [storeNode_store] at before
        have newer := wf.createNode_renews overwrites titled before (uuids.trans equal)
        exact Nat.not_lt.mpr (Nat.le_trans old journal.marked) newer
      · exact ih journal' wf' ((wf.grows step).overwrite.trans overwrites) later stored

namespace ImportSource

private theorem unresolved_renews (settings : ImportSettings) (source : ImportSource)
    (wf : s.WellFormed)
    (settled : s.ledger = .empty) (overwrites : s.overwrite = true) :
    let r := (source.unresolved settings s).2.store.repository
    (∀ e ∈ r.nodes, e.1 ≤ s.lastId → (source.scope settings).uuids e.2.uuid = false) ∧
      ∀ e ∈ r.tags, e.1 ≤ s.lastId →
        (source.scope settings).vocabularies e.2.vocabularyId = false := by
  have journal := wf.journal settled
  have tagged := source.tagged_edits settings s
  have wf' := wf.edits tagged
  have journal' := journal.edits wf tagged
  have overwrites' := (wf.grows tagged).overwrite.trans overwrites
  constructor
  · intro e stored old
    refine Bool.eq_false_iff.mpr fun within => ?_
    obtain ⟨n, member, written⟩ := List.any_eq_true.mp within
    simp only [Bool.and_eq_true, decide_eq_true_eq] at written
    exact Progress.storeNodes_renews journal' wf' overwrites' member written.1 stored old
      written.2.symm
  · intro e stored old
    refine Bool.eq_false_iff.mpr fun within => ?_
    obtain ⟨v, member, written⟩ := List.any_eq_true.mp within
    have rest : Edits .everything (source.tagged settings s).store
        (source.unresolved settings s).2.store :=
      Progress.storeNodes_edits _ wf' _ fun _ _ _ => rfl
    obtain ⟨tag, before, same⟩ := journal'.older_tag wf' rest stored old
    refine journal.importVocabularies_renews wf overwrites member before old ?_
    exact same.trans (of_decide_eq_true written).symm

variable {settings : ImportSettings} {source : ImportSource}

private theorem written_outlasts (wf : s.WellFormed) (settled : s.ledger = .empty)
    (passed : (source.unresolved settings s).1 = none) :
    Outlasts ((source.scope settings).replacing s.overwrite) s (source.written settings s) := by
  have steps := source.unresolved_edits wf settings
  have stored : Outlasts ((source.scope settings).replacing s.overwrite) s
      (source.unresolved settings s).2.store := by
    cases overwrites : s.overwrite with
    | false => exact wf.outlasts_keeping settled overwrites steps
    | true =>
      obtain ⟨nodes, tags⟩ := source.unresolved_renews settings wf settled overwrites
      exact wf.outlasts_replacing steps nodes tags
  obtain ⟨lastId, nodes, tags⟩ :=
    stored.insertReferences (source.references_newer wf settled passed)
  exact ⟨lastId, nodes, tags⟩

end ImportSource

/-! ## What a run writes -/

/-- Every reference field that a record gives its node holds a list of entries, and each entry that is
not nothing has a property. -/
def ReferencesHold (n : NodeRecord) (created : CreatedNode) (fields : Table String Json.Value)
    (property : EntityId → Prop) : Prop :=
  ∀ f ∈ n.fields, f.deferredTargets?.isSome = true → f.fieldName ∉ created.skippedFields →
    ∃ entries, Table.get? fields f.fieldName = some (referenceValue entries) ∧
      ∀ target, some target ∈ entries → property target

private theorem ReferencesHold.imp {n : NodeRecord} {created : CreatedNode}
    {fields : Table String Json.Value} {P Q : EntityId → Prop}
    (hold : ReferencesHold n created fields P) (implies : ∀ target, P target → Q target) :
    ReferencesHold n created fields Q := by
  intro f member waits kept
  obtain ⟨entries, value, held⟩ := hold f member waits kept
  exact ⟨entries, value, fun target listed => implies target (held target listed)⟩

private theorem Store.Journal.leads_of_resolveTarget? (journal : Journal mark s) (wf : s.WellFormed)
    {item : FieldItem} {id : EntityId} (found : s.resolveTarget? item = some id) :
    s.repository.Leads id := by
  cases item with
  | node uuid =>
    obtain ⟨-, node, stored, -⟩ := (journal.createdNodeId?_eq_some_iff wf).mp found
    exact Repository.leads_of_node stored
  | tag ref => exact (Repository.hasTag_of_tagId? found).leads
  | file uri => cases found
  | literal value => cases found

namespace ImportSource

variable {settings : ImportSettings} {source : ImportSource}

private theorem written_origin (wf : s.WellFormed) (settled : s.ledger = .empty)
    (passed : (source.unresolved settings s).1 = none) {e : EntityId × StoredNode}
    (stored : e ∈ (source.written settings s).repository.nodes) (newer : s.lastId < e.1) :
    ∃ a ∈ (source.tagged settings s).store.accepted (source.recordsFor settings),
      a.2.id = e.1 ∧ a.1.uuid = e.2.uuid ∧
        ReferencesHold a.1 a.2 e.2.fields (source.written settings s).repository.Leads := by
  have accepting := source.accepting_unresolved wf settled passed
  have nodes : (source.written settings s).repository.nodes =
      (source.unresolved settings s).2.store.repository.nodes.map fun e =>
        (e.1, { e.2 with fields := writtenFields (source.references settings s) e.1 e.2.fields }) :=
    insertReferences_nodes _ _
  rw [nodes] at stored
  obtain ⟨before, member, rfl⟩ := List.mem_map.mp stored
  obtain ⟨a, accepted, same, uuids⟩ := accepting.origin before member newer
  refine ⟨a, accepted, same, uuids, ?_⟩
  intro f held waits kept
  have written : ∃ w ∈ source.references settings s, w.node = before.1 ∧
      w.fieldName = f.fieldName := by
    obtain ⟨d, split, owner, name⟩ := exists_mem_splitDeferred held waits kept
    have pending : d ∈ (source.unresolved settings s).2.pending := by
      rw [accepting.pending]
      exact List.mem_flatMap.mpr ⟨a, accepted, split⟩
    exact ⟨_, List.mem_map_of_mem pending, owner.trans same, name⟩
  obtain ⟨w, listed, -, -, value⟩ := exists_get?_writtenFields written before.2.fields
  refine ⟨w.targetIds, value, ?_⟩
  intro target entry
  obtain ⟨d, -, rfl⟩ := List.mem_map.mp listed
  obtain ⟨item, -, found⟩ := List.mem_map.mp entry
  have leads := accepting.journal.leads_of_resolveTarget? accepting.wellFormed found
  exact (leads_insertReferences _ _ target).mpr leads

end ImportSource

/-! ## Runs one after the other -/

/-- An import that is asked for. -/
structure Request where
  settings : ImportSettings
  path : String
  content : PathContent

namespace Request

def run (r : Request) (s : Store) : Except ImportError ImportSummary × Store :=
  runImport r.settings r.path r.content s

def scope (r : Request) : Scope :=
  match openSource r.settings r.path r.content with
  | .error _ => .nothing
  | .ok source => source.scope r.settings

/-- The nodes that a store accepts in an import, each with what was created for it. -/
def accepted (r : Request) (s : Store) : List (NodeRecord × CreatedNode) :=
  match openSource r.settings r.path r.content with
  | .error _ => []
  | .ok source => (source.tagged r.settings s).store.accepted (source.recordsFor r.settings)

def scopes (requests : List Request) : Scope :=
  ⟨fun id => requests.any (·.scope.vocabularies id), fun uuid => requests.any (·.scope.uuids uuid)⟩

private theorem within_scopes {r : Repository} {requests : List Request} {overwrite : Bool}
    {id : EntityId} :
    r.Within ((scopes requests).replacing overwrite) id ↔
      overwrite = true ∧ ∃ later ∈ requests, r.Within later.scope id := by
  cases overwrite with
  | false => simp [Repository.Within, Scope.replacing, Scope.nothing]
  | true =>
    rw [Scope.replacing, if_pos rfl, scopes, Repository.Within]
    simp only [List.any_eq_true, true_and]
    constructor
    · rintro (⟨node, stored, later, listed, within⟩ | ⟨v, stored, later, listed, within⟩)
      · exact ⟨later, listed, .inl ⟨node, stored, within⟩⟩
      · exact ⟨later, listed, .inr ⟨v, stored, within⟩⟩
    · rintro ⟨later, listed, ⟨node, stored, within⟩ | ⟨v, stored, within⟩⟩
      · exact .inl ⟨node, stored, later, listed, within⟩
      · exact .inr ⟨v, stored, later, listed, within⟩

private theorem run_written {r : Request} (succeeded : (r.run s).1.isOk = true) :
    ∃ source, openSource r.settings r.path r.content = .ok source ∧
      (source.unresolved r.settings s).1 = none ∧ (r.run s).2 = source.written r.settings s := by
  unfold run runImport at succeeded ⊢
  cases opened : openSource r.settings r.path r.content with
  | error e =>
    rw [opened] at succeeded
    cases succeeded
  | ok source =>
    simp only [opened, runSource_isOk_eq] at succeeded ⊢
    have passed := Option.isNone_iff_eq_none.mp succeeded
    exact ⟨source, rfl, passed, by rw [ImportSource.runSource_of_passed passed]⟩

end Request

namespace Store

def importing (s : Store) (requests : List Request) : Store :=
  requests.foldl (fun s r => (r.run s).2) s

def succeeds (s : Store) : List Request → Bool
  | [] => true
  | r :: rest => (r.run s).1.isOk && (r.run s).2.succeeds rest

private theorem importing_append (s : Store) (before after : List Request) :
    s.importing (before ++ after) = (s.importing before).importing after :=
  List.foldl_append

private theorem succeeds_append (s : Store) (before after : List Request) :
    s.succeeds (before ++ after) = (s.succeeds before && (s.importing before).succeeds after) := by
  induction before generalizing s with
  | nil => rfl
  | cons r before ih =>
    rw [List.cons_append, succeeds, succeeds, ih, Bool.and_assoc]
    rfl

private theorem exists_run_of_newer {requests : List Request} {id : EntityId}
    (newer : s.lastId < id)
    (given : id ≤ (s.importing requests).lastId) :
    ∃ before r after, requests = before ++ r :: after ∧ (s.importing before).lastId < id ∧
      id ≤ (s.importing (before ++ [r])).lastId := by
  induction requests generalizing s with
  | nil => exact absurd given (Nat.not_le.mpr newer)
  | cons r requests ih =>
    by_cases here : id ≤ (r.run s).2.lastId
    · exact ⟨[], r, requests, rfl, newer, here⟩
    · obtain ⟨before, later, after, rfl, behind, given⟩ := ih (Nat.not_le.mp here) given
      exact ⟨r :: before, later, after, rfl, behind, given⟩

/-- A store between runs. -/
structure Rested (s : Store) : Prop where
  reachable : Reachable s
  settled : s.ledger = .empty
  linked : s.repository.Linked

namespace Rested

private theorem empty (overwrite : Bool) (contentModel : Table String (List String)) :
    Rested (.empty overwrite contentModel) :=
  ⟨.empty overwrite contentModel, rfl, fun e member => by cases member⟩

variable {r : Request} {requests : List Request}

private theorem run (rested : Rested s) (succeeded : (r.run s).1.isOk = true) : Rested
    (r.run s).2 := by
  have wf := rested.reachable.sound.wellFormed
  have reachable : Reachable (r.run s).2 := rested.reachable.runImport r.settings r.path r.content
  obtain ⟨source, -, -, same⟩ := Request.run_written succeeded
  have linked := wf.linked_edits rested.linked (source.unresolved_edits wf r.settings)
  refine ⟨reachable, ?_, ?_⟩
  · rw [same]
    rfl
  · rw [same]
    unfold Repository.Linked Repository.HasTag at linked ⊢
    have tags : (source.written r.settings s).repository.tags =
        (source.unresolved r.settings s).2.store.repository.tags := insertReferences_tags _ _
    rwa [tags]

private theorem run_overwrite (rested : Rested s) (succeeded : (r.run s).1.isOk = true) :
    (r.run s).2.overwrite = s.overwrite := by
  have wf := rested.reachable.sound.wellFormed
  obtain ⟨source, -, -, same⟩ := Request.run_written succeeded
  have kept := (wf.grows (source.unresolved_edits wf r.settings)).overwrite
  rw [same, ← kept, ImportSource.written, insertReferences_eq]
  rfl

private theorem run_outlasts (rested : Rested s) (succeeded : (r.run s).1.isOk = true) :
    Outlasts (r.scope.replacing s.overwrite) s (r.run s).2 := by
  have wf := rested.reachable.sound.wellFormed
  obtain ⟨source, opened, passed, same⟩ := Request.run_written succeeded
  have scope : r.scope = source.scope r.settings := by rw [Request.scope, opened]
  rw [same, scope]
  exact source.written_outlasts wf rested.settled passed

private theorem run_origin (rested : Rested s) (succeeded : (r.run s).1.isOk = true)
    {e : EntityId × StoredNode} (stored : e ∈ (r.run s).2.repository.nodes)
    (newer : s.lastId < e.1) :
    ∃ a ∈ r.accepted s, a.2.id = e.1 ∧ a.1.uuid = e.2.uuid ∧
      ReferencesHold a.1 a.2 e.2.fields (r.run s).2.repository.Leads := by
  have wf := rested.reachable.sound.wellFormed
  obtain ⟨source, opened, passed, same⟩ := Request.run_written succeeded
  have accepted : r.accepted s =
      (source.tagged r.settings s).store.accepted (source.recordsFor r.settings) := by
    rw [Request.accepted, opened]
  rw [same] at stored ⊢
  rw [accepted]
  exact source.written_origin wf rested.settled passed stored newer

private theorem importing (rested : Rested s) (succeeded : s.succeeds requests = true) :
    Rested (s.importing requests) := by
  induction requests generalizing s with
  | nil => exact rested
  | cons r requests ih =>
    obtain ⟨first, others⟩ := (Bool.and_eq_true _ _).mp succeeded
    exact ih (rested.run first) others

private theorem importing_overwrite (rested : Rested s) (succeeded : s.succeeds requests = true) :
    (s.importing requests).overwrite = s.overwrite := by
  induction requests generalizing s with
  | nil => rfl
  | cons r requests ih =>
    obtain ⟨first, others⟩ := (Bool.and_eq_true _ _).mp succeeded
    exact (ih (rested.run first) others).trans (rested.run_overwrite first)

private theorem importing_outlasts (rested : Rested s) (succeeded : s.succeeds requests = true) :
    Outlasts ((Request.scopes requests).replacing s.overwrite) s (s.importing requests) := by
  induction requests generalizing s with
  | nil =>
    have nothing : (Request.scopes []).replacing s.overwrite = .nothing := by
      cases s.overwrite <;> rfl
    rw [nothing]
    exact .refl s
  | cons r requests ih =>
    obtain ⟨first, others⟩ := (Bool.and_eq_true _ _).mp succeeded
    have later := ih (rested.run first) others
    rw [rested.run_overwrite first] at later
    have scopes : (Request.scopes (r :: requests)).replacing s.overwrite =
        (r.scope.replacing s.overwrite).or ((Request.scopes requests).replacing s.overwrite) := by
      cases s.overwrite <;> rfl
    rw [scopes]
    exact (rested.run_outlasts first).trans later

end Rested

end Store

/-- After imports that succeed, parents of tags are stored tags of the same vocabulary. Every stored
node is of the import that accepted it, and when that ended its reference fields led to stored nodes
and tags. They lead to them still, except where the store overwrites and one of the later imports has
a record of the uuid of such a node or of the vocabulary of such a tag. -/
theorem references_lead {overwrite : Bool} {contentModel : Table String (List String)}
    {requests : List Request}
    (succeeded : (Store.empty overwrite contentModel).succeeds requests = true) :
    let start := Store.empty overwrite contentModel
    let final := (start.importing requests).repository
    final.Linked ∧ ∀ e ∈ final.nodes, ∃ before r after, requests = before ++ r :: after ∧
      let written := (start.importing (before ++ [r])).repository
      ∃ a ∈ r.accepted (start.importing before), a.2.id = e.1 ∧ a.1.uuid = e.2.uuid ∧
        ReferencesHold a.1 a.2 e.2.fields fun target => written.Leads target ∧
          (final.Leads target ↔
            overwrite = false ∨ ∀ later ∈ after, ¬ written.Within later.scope target) := by
  intro start final
  have rested := Rested.empty overwrite contentModel
  have ended := rested.importing succeeded
  refine ⟨ended.linked, ?_⟩
  intro e stored
  have newer : start.lastId < e.1 := by
    refine Nat.lt_of_not_le fun old => ?_
    have there := ((rested.importing_outlasts succeeded).nodes e old).mp stored
    cases there.1
  have given := ended.reachable.sound.wellFormed.given.nodes e stored
  obtain ⟨before, r, after, rfl, behind, created⟩ := exists_run_of_newer newer given
  refine ⟨before, r, after, rfl, ?_⟩
  have parts := (succeeds_append start before (r :: after)).symm.trans succeeded
  simp only [Store.succeeds, Bool.and_eq_true] at parts
  obtain ⟨first, here, others⟩ := parts
  have begun := rested.importing first
  have done := begun.run here
  have overwrites : ((r.run (start.importing before)).2).overwrite = overwrite :=
    (begun.run_overwrite here).trans (rested.importing_overwrite first)
  have outlasts := done.importing_outlasts others
  rw [overwrites] at outlasts
  have last : start.importing (before ++ r :: after) =
      (r.run (start.importing before)).2.importing after := importing_append _ _ _
  have middle : start.importing (before ++ [r]) = (r.run (start.importing before)).2 :=
    importing_append _ _ _
  rw [middle] at created ⊢
  have kept := ((outlasts.nodes e created).mp (last ▸ stored)).1
  obtain ⟨a, accepted, same, uuids, hold⟩ := begun.run_origin here kept behind
  refine ⟨a, accepted, same, uuids, hold.imp ?_⟩
  intro target leads
  refine ⟨leads, ?_⟩
  have still := outlasts.leads_iff done.reachable leads
  rw [Request.within_scopes, ← last, not_and_or, Bool.not_eq_true] at still
  refine still.trans (or_congr_right ⟨?_, ?_⟩)
  · exact fun none later listed within => none ⟨later, listed, within⟩
  · rintro none ⟨later, listed, within⟩
    exact none later listed within

/-- The numbers that a reference field holds. -/
def heldIds : Json.Value → List EntityId
  | .list values => values.filterMap fun
    | .number (.whole n) => some n.toNat
    | _ => none
  | _ => []

private theorem heldIds_referenceValue (entries : List (Option EntityId)) :
    heldIds (referenceValue entries) = entries.reduceOption := by
  rw [referenceValue, heldIds, List.filterMap_map, List.reduceOption]
  refine List.filterMap_congr ?_
  intro entry _
  cases entry <;> rfl

private theorem not_referencesHold {n : NodeRecord} {created : CreatedNode}
    {fields : Table String Json.Value} {property : EntityId → Prop} {f : FieldRecord}
    (member : f ∈ n.fields) (waits : f.deferredTargets?.isSome = true)
    (kept : f.fieldName ∉ created.skippedFields) {value : Json.Value}
    (held : Table.get? fields f.fieldName = some value) {target : EntityId}
    (listed : target ∈ heldIds value) (fails : ¬ property target) :
    ¬ ReferencesHold n created fields property := by
  intro hold
  obtain ⟨entries, written, holds⟩ := hold f member waits kept
  rw [held] at written
  rw [Option.some.inj written, heldIds_referenceValue, List.reduceOption_mem_iff] at listed
  exact fails (holds target listed)

/-- An import of two fruits, the first of which refers to the second. -/
def kindredImport : Request :=
  ⟨.standard, "fruit.json", kindredFruits⟩

def pearImport : Request :=
  ⟨.standard, "fruit.json", .file ("\x7b\"nodes\":[\x7b\"title\":\"Pear\",\"type\":\"fruit\"," ++
    "\"uuid\":\"pear\"\x7d]\x7d").toUTF8.toList⟩

def fruitImports : List Request :=
  [kindredImport, pearImport]

private theorem importing_fruitImports :
    ((Store.empty true []).succeeds fruitImports,
      ((Store.empty true []).importing fruitImports).repository.tags.map (·.1),
      ((Store.empty true []).importing fruitImports).repository.nodes.map fun e =>
        (e.1, e.2.uuid, (Table.get? e.2.fields "kin").map heldIds)) =
      (true, [], [(1, "apple", some [2]), (3, "pear", none)]) := by
  decide +kernel

private theorem accepted_kindredImport :
    ((kindredImport.accepted (.empty true [])).map fun a =>
      (a.2.id, a.1.uuid, a.2.skippedFields, (a.1.fields.filter (·.deferredTargets?.isSome)).map
        (·.fieldName))) =
      [(1, "apple", [], ["kin"]), (2, "pear", [], [])] := by
  decide +kernel

theorem references_lead_fruitImports :
    let start := Store.empty true []
    start.succeeds fruitImports = true ∧
      ∀ e ∈ (start.importing fruitImports).repository.nodes, ∃ before r after,
        fruitImports = before ++ r :: after ∧ ∃ a ∈ r.accepted (start.importing before),
          a.2.id = e.1 ∧ a.1.uuid = e.2.uuid ∧ ReferencesHold a.1 a.2 e.2.fields
            (start.importing (before ++ [r])).repository.Leads := by
  obtain ⟨succeeded, -⟩ := Prod.mk.inj importing_fruitImports
  refine ⟨succeeded, ?_⟩
  intro e stored
  obtain ⟨before, r, after, parts, a, accepted, same, uuids, hold⟩ :=
    (references_lead succeeded).2 e stored
  exact ⟨before, r, after, parts, a, accepted, same, uuids, hold.imp fun target held => held.1⟩

/-- With overwriting on, the reference to the second fruit dangles once that is imported again. -/
theorem references_dangle_fruitImports :
    (Store.empty true []).succeeds fruitImports = true ∧
      ∃ e ∈ ((Store.empty true []).importing fruitImports).repository.nodes, ∃ before r after,
        fruitImports = before ++ r :: after ∧
          ∃ a ∈ r.accepted ((Store.empty true []).importing before),
            a.2.id = e.1 ∧ a.1.uuid = e.2.uuid ∧ ¬ ReferencesHold a.1 a.2 e.2.fields
              ((Store.empty true []).importing fruitImports).repository.Leads := by
  obtain ⟨succeeded, outcome⟩ := Prod.mk.inj importing_fruitImports
  have records := accepted_kindredImport
  refine ⟨succeeded, ?_⟩
  generalize ((Store.empty true []).importing fruitImports).repository = final at outcome ⊢
  obtain ⟨tags, nodes⟩ := Prod.mk.inj outcome
  have apple : (1, "apple", some [2]) ∈ final.nodes.map fun e =>
      (e.1, e.2.uuid, (Table.get? e.2.fields "kin").map heldIds) := by
    rw [nodes]
    exact List.mem_cons_self
  have ids : final.nodes.map (·.1) = [1, 3] := by
    simpa [List.map_map, Function.comp_def] using congrArg (List.map Prod.fst) nodes
  have record : (1, "apple", [], ["kin"]) ∈ (kindredImport.accepted (.empty true [])).map fun a =>
      (a.2.id, a.1.uuid, a.2.skippedFields,
        (a.1.fields.filter (·.deferredTargets?.isSome)).map (·.fieldName)) := by
    rw [records]
    exact List.mem_cons_self
  obtain ⟨e, stored, told⟩ := List.mem_map.mp apple
  obtain ⟨a, accepted, known⟩ := List.mem_map.mp record
  simp only [Prod.mk.injEq] at told known
  obtain ⟨id, uuid, kin⟩ := told
  obtain ⟨same, uuids, skipped, waiting⟩ := known
  obtain ⟨value, held, listed⟩ := Option.map_eq_some_iff.mp kin
  obtain ⟨f, member, name⟩ := List.mem_map.mp (waiting ▸ List.mem_cons_self :
    "kin" ∈ (a.1.fields.filter (·.deferredTargets?.isSome)).map (·.fieldName))
  obtain ⟨member, waits⟩ := List.mem_filter.mp member
  refine ⟨e, stored, [], kindredImport, [pearImport], rfl, a, accepted, same.trans id.symm,
    uuids.trans uuid.symm, ?_⟩
  refine not_referencesHold member waits (by simp [skipped]) (name ▸ held)
    (listed ▸ List.mem_cons_self) ?_
  rintro (node | tag)
  · rw [Repository.ids, ids] at node
    exact absurd node (by decide)
  · rw [Repository.ids, tags] at tag
    cases tag

end ContentImport
