import ContentImport.Proofs.Import.Phases
import ContentImport.Proofs.Store.Alike
import ContentImport.Proofs.Store.FieldMap

/-!
Writing the same records into two stores that are alike. Each operation keeps them alike: a
vocabulary or a node that is replaced leaves the scope, what is created corresponds to each other
under an extended renaming, and files that the first store creates are found by the second.
-/

set_option autoImplicit false
set_option relaxedAutoImplicit false

namespace ContentImport

open ContentImport.Store

namespace Store

variable {s t : Store}

namespace Alike

variable {scope : Scope} {start : EntityId} {goal a b : Store} {ρ : EntityId → EntityId}

/-! ## Vocabularies -/

private theorem linkParents_lastId (s : Store) (vocabularyId : String) (link : TagParents) :
    (linkParents vocabularyId s link).lastId = s.lastId := by
  unfold linkParents
  split
  · rfl
  · split <;> rfl

private theorem linkParents (alike : Alike scope start goal ρ a b)
    (room : a.lastId ≤ goal.lastId) {vocabularyId : String}
    (outside : scope.vocabularies vocabularyId = false) (link : TagParents) :
    Alike scope start goal ρ (Store.linkParents vocabularyId a link)
      (Store.linkParents vocabularyId b link) := by
  have same := alike.tagId? outside link.name
  unfold Store.linkParents
  split
  · exact alike
  · cases found : a.repository.tagId? vocabularyId link.name with
    | none =>
      rw [found] at same
      rw [same]
      exact alike
    | some id =>
      rw [found] at same
      rw [same]
      exact alike.setParents room outside found link.parents

private theorem setTagParents (alike : Alike scope start goal ρ a b)
    (room : a.lastId ≤ goal.lastId) {vocabularyId : String}
    (outside : scope.vocabularies vocabularyId = false) (links : List TagParents) :
    Alike scope start goal ρ (a.setTagParents vocabularyId links)
      (b.setTagParents vocabularyId links) := by
  unfold Store.setTagParents
  induction links generalizing a b with
  | nil => exact alike
  | cons link links ih =>
    refine ih (alike.linkParents room outside link) ?_
    rw [linkParents_lastId]
    exact room

private theorem addTag (alike : Alike scope start goal ρ a b) {vocabularyId name : String}
    (outside : scope.vocabularies vocabularyId = false)
    (housedA : Table.holds a.repository.vocabularies vocabularyId = true)
    (housedB : Table.holds b.repository.vocabularies vocabularyId = true)
    (room : (a.addTag vocabularyId name).lastId ≤ goal.lastId) :
    ∃ ρ', Alike scope start goal ρ' (a.addTag vocabularyId name) (b.addTag vocabularyId name) := by
  unfold Store.addTag at room ⊢
  split
  · exact ⟨ρ, alike⟩
  · next named =>
    rw [if_neg named] at room
    exact ⟨_, alike.putTag outside named housedA housedB room⟩

private theorem addTags (alike : Alike scope start goal ρ a b) {vocabularyId : String}
    {tags : List TagRecord} (outside : scope.vocabularies vocabularyId = false)
    (housedA : Table.holds a.repository.vocabularies vocabularyId = true)
    (housedB : Table.holds b.repository.vocabularies vocabularyId = true)
    (room : (a.addTags vocabularyId tags).lastId ≤ goal.lastId) :
    ∃ ρ', Alike scope start goal ρ' (a.addTags vocabularyId tags)
      (b.addTags vocabularyId tags) := by
  unfold Store.addTags at room ⊢
  induction tags generalizing a b ρ with
  | nil => exact ⟨ρ, alike⟩
  | cons tag tags ih =>
    have same : (b.repository.tagId? vocabularyId tag.name).isSome =
        (a.repository.tagId? vocabularyId tag.name).isSome := by
      rw [alike.tagId? outside, Option.isSome_map]
    rw [List.foldl_cons] at room
    rw [List.foldl_cons, List.foldl_cons, same]
    split
    · next there =>
      rw [if_pos there] at room
      exact ih alike housedA housedB room
    · next missing =>
      rw [if_neg missing] at room
      have added : Edits .everything a (a.addTag vocabularyId tag.name) :=
        addTag_edits a tag.name rfl housedA
      have housed : Table.holds (a.addTag vocabularyId tag.name).repository.vocabularies
          vocabularyId = true := by simpa using housedA
      have rest : Edits .everything (a.addTag vocabularyId tag.name)
          ((a.addTag vocabularyId tag.name).addTags vocabularyId tags) :=
        addTags_edits _ tags rfl housed
      have grows := (alike.first.edits added).grows rest
      obtain ⟨ρ', next⟩ := alike.addTag outside housedA housedB (Nat.le_trans grows.lastId room)
      exact ih next housed (by simpa using housedB) room

private theorem importVocabulary (alike : Alike scope start goal ρ a b) {v : VocabularyRecord}
    (grows : Grows (a.importVocabulary v) goal) :
    ∃ ρ', Alike (scope.withoutVocabulary v.vocabularyId) start goal ρ' (a.importVocabulary v)
      (b.importVocabulary v) := by
  have outside : (scope.withoutVocabulary v.vocabularyId).vocabularies v.vocabularyId = false := by
    simp [Scope.withoutVocabulary]
  have housed := createVocabulary_holds a v.vocabularyId v.name
  have created : Edits .everything a (a.createVocabulary v.vocabularyId v.name) :=
    createVocabulary_edits a v.name rfl
  have tagged : Edits .everything (a.createVocabulary v.vocabularyId v.name)
      ((a.createVocabulary v.vocabularyId v.name).addTags v.vocabularyId v.tags) :=
    addTags_edits _ v.tags rfl housed
  have linked : Edits .everything
      ((a.createVocabulary v.vocabularyId v.name).addTags v.vocabularyId v.tags)
      (a.importVocabulary v) := setTagParents_edits _ v.tagParents rfl
  have wf := alike.first.edits created
  have growsTagged := ((wf.edits tagged).grows linked).trans grows
  have replaced := alike.createVocabulary ((wf.grows tagged).trans growsTagged)
  obtain ⟨ρ', added⟩ := replaced.addTags outside housed (createVocabulary_holds b _ _)
    growsTagged.lastId
  exact ⟨ρ', added.setTagParents growsTagged.lastId outside v.tagParents⟩

end Alike

def Scope.withoutVocabularies (scope : Scope) (vocabularies : List VocabularyRecord) : Scope :=
  vocabularies.foldl (fun scope v => scope.withoutVocabulary v.vocabularyId) scope

private theorem Scope.withoutVocabularies_eq (scope : Scope)
    (vocabularies : List VocabularyRecord) :
    scope.withoutVocabularies vocabularies =
      { scope with
        vocabularies := fun id =>
          scope.vocabularies id && !vocabularies.any (·.vocabularyId = id) } := by
  induction vocabularies generalizing scope with
  | nil => simp [withoutVocabularies]
  | cons v vocabularies ih =>
    rw [withoutVocabularies, List.foldl_cons]
    refine (ih _).trans ?_
    simp [withoutVocabulary, Bool.and_assoc, eq_comm (a := v.vocabularyId)]

theorem Alike.importVocabularies {scope : Scope} {start : EntityId} {goal a b : Store}
    {ρ : EntityId → EntityId} (alike : Alike scope start goal ρ a b)
    {vocabularies : List VocabularyRecord}
    (grows : Grows (a.importVocabularies vocabularies) goal) :
    ∃ ρ', Alike (scope.withoutVocabularies vocabularies) start goal ρ'
      (a.importVocabularies vocabularies) (b.importVocabularies vocabularies) := by
  induction vocabularies generalizing scope a b ρ with
  | nil => exact ⟨ρ, alike⟩
  | cons v vocabularies ih =>
    have first : Edits .everything a (a.importVocabulary v) := importVocabulary_edits a rfl
    have rest : Edits .everything (a.importVocabulary v)
        ((a.importVocabulary v).importVocabularies vocabularies) :=
      importVocabularies_edits _ _ fun _ _ => rfl
    have growsFirst := ((alike.first.edits first).grows rest).trans grows
    obtain ⟨ρ', next⟩ := alike.importVocabulary growsFirst
    exact ih next grows

/-! ## Nodes -/

/-- A scope without the uuid of a node; a node without a title is not written. -/
def Scope.withoutNode (scope : Scope) (n : NodeRecord) : Scope :=
  if n.title = "" then scope else scope.withoutUuid n.uuid

def Scope.withoutNodes (scope : Scope) (nodes : List NodeRecord) : Scope :=
  nodes.foldl Scope.withoutNode scope

private theorem Scope.withoutNodes_eq (scope : Scope) (nodes : List NodeRecord) :
    scope.withoutNodes nodes =
      { scope with
        uuids := fun uuid =>
          scope.uuids uuid && !nodes.any fun n => n.title ≠ "" && n.uuid = uuid } := by
  induction nodes generalizing scope with
  | nil => simp [withoutNodes]
  | cons n nodes ih =>
    rw [withoutNodes, List.foldl_cons]
    refine (ih _).trans ?_
    unfold withoutNode
    by_cases titled : n.title = ""
    · simp [titled]
    · simp [withoutUuid, titled, Bool.and_assoc, eq_comm (a := n.uuid)]

def renameCreated (ρ : EntityId → EntityId) (created : CreatedNode) : CreatedNode :=
  { created with id := ρ created.id }

theorem createNode_overwriting (overwrites : s.overwrite = true) {n : NodeRecord}
    (titled : n.title ≠ "") :
    s.createNode n =
      match s.bundleFields n.bundle with
      | .error e => (.error e, s.discard n.uuid)
      | .ok accepted =>
        let written := writeFields accepted (s.discard n.uuid) n.fields
        (.ok ⟨written.2.lastId + 1, written.1.skipped⟩, written.2.putNode n written.1.values) := by
  have free : ¬ ((s.repository.nodeByUuid? n.uuid).isSome && !s.overwrite) = true := by
    simp [overwrites]
  exact (createNode_eq s n).trans ((if_neg titled).trans (if_neg free))

theorem createNode_passes (overwrites : s.overwrite = true) {n : NodeRecord} {e : StoreError}
    (refused : (s.createNode n).1 = .error e) : e.isFatal = false := by
  by_cases titled : n.title = ""
  · rw [createNode_eq, if_pos titled] at refused
    cases refused
    rfl
  · rw [createNode_overwriting overwrites titled] at refused
    cases known : s.bundleFields n.bundle with
    | error e' =>
      rw [known] at refused
      cases refused
      rw [bundleFields_error known]
      rfl
    | ok accepted =>
      rw [known] at refused
      cases refused

namespace Alike

variable {scope : Scope} {start : EntityId} {goal a b : Store} {ρ : EntityId → EntityId}

private theorem writeNode (alike : Alike scope start goal ρ a b) {n : NodeRecord}
    (titled : n.title ≠ "") (accepted : Option (List String)) {written : WrittenFields × Store}
    (fields : writeFields accepted (a.discard n.uuid) n.fields = written)
    (room : a.lastId ≤ goal.lastId) (grows : Grows (written.2.putNode n written.1.values) goal) :
    ∃ ρ', (∀ id ≤ a.lastId, ρ' id = ρ id) ∧
      ρ' (written.2.lastId + 1) = (b.discard n.uuid).lastId + 1 ∧
      writeFields accepted (b.discard n.uuid) n.fields = (written.1, b.discard n.uuid) ∧
      Alike (scope.withoutUuid n.uuid) start goal ρ' (written.2.putNode n written.1.values)
        ((b.discard n.uuid).putNode n written.1.values) := by
  have discarded : Edits .everything a (a.discard n.uuid) :=
    discard_edits a rfl (by simp [alike.firstOverwrites])
  have wf := alike.first.edits discarded
  have filed : Filings (a.discard n.uuid) written.2 := by
    rw [← fields]
    exact writeFields_filings accepted (a.discard n.uuid) n.fields
  have values : written.1.values.Ascending := by
    rw [← fields]
    exact writeFields_ascending accepted (a.discard n.uuid) n.fields
  have steps : Edits .everything a written.2 := discarded.trans filed.edits
  have absent : written.2.repository.nodeByUuid? n.uuid = none := by
    obtain ⟨files, entered, last, same⟩ := filed.frame
    rw [same]
    exact alike.first.nodeByUuid?_discard n.uuid
  have step : Edit .everything written.2 (written.2.putNode n written.1.values) :=
    .putNode rfl titled absent values
  have kept := alike.discard room n.uuid
  have files : written.2.repository.files <+: (b.discard n.uuid).repository.files := by
    rw [kept.files]
    exact (((alike.first.edits steps).grows_edit step).trans grows).files
  have reused := writeFields_reuse accepted wf (fields ▸ files)
  rw [fields] at reused
  obtain ⟨ρ', agree, new, next⟩ := (kept.file filed).putNode
    (by simp [Scope.withoutUuid]) titled absent (alike.second.nodeByUuid?_discard n.uuid) values
    grows.lastId
  refine ⟨ρ', fun id old => ?_, new, reused, next⟩
  exact agree id (Nat.le_trans old (alike.first.grows steps).lastId)

theorem createNode (alike : Alike scope start goal ρ a b) {n : NodeRecord}
    (grows : Grows (a.createNode n).2 goal) :
    ∃ ρ', (∀ id ≤ a.lastId, ρ' id = ρ id) ∧
      Alike (scope.withoutNode n) start goal ρ' (a.createNode n).2 (b.createNode n).2 ∧
      (b.createNode n).1 = (a.createNode n).1.map (renameCreated ρ') := by
  have created := alike.first.createNode_everything n
  have room := Nat.le_trans (alike.first.grows created).lastId grows.lastId
  unfold Scope.withoutNode
  by_cases titled : n.title = ""
  · rw [if_pos titled, createNode_eq, createNode_eq, if_pos titled, if_pos titled]
    exact ⟨ρ, fun _ _ => rfl, alike, rfl⟩
  · rw [if_neg titled]
    have model : b.bundleFields n.bundle = a.bundleFields n.bundle := by
      unfold bundleFields
      rw [alike.contentModel]
    rw [createNode_overwriting alike.firstOverwrites titled] at grows ⊢
    rw [createNode_overwriting alike.secondOverwrites titled, model]
    cases known : a.bundleFields n.bundle with
    | error e => exact ⟨ρ, fun _ _ => rfl, alike.discard room n.uuid, rfl⟩
    | ok accepted =>
      rw [known] at grows
      obtain ⟨ρ', agree, new, reused, next⟩ := alike.writeNode titled accepted rfl room grows
      refine ⟨ρ', agree, ?_, ?_⟩
      · simpa only [reused] using next
      · simp only [reused, Except.map, renameCreated, new]

end Alike

end Store

theorem ImportSource.scope_written (settings : ImportSettings) (source : ImportSource) :
    ((source.scope settings).withoutVocabularies (source.vocabulariesFor settings)).withoutNodes
      (source.recordsFor settings) = .nothing := by
  rw [Scope.withoutVocabularies_eq, Scope.withoutNodes_eq]
  simp [ImportSource.scope, Scope.nothing]

namespace Progress

theorem storeNode_passes {p : Progress} (overwrites : p.store.overwrite = true)
    (n : NodeRecord) : (p.storeNode n).1 = none := by
  have passes : ∀ e, (p.store.createNode n).1 = .error e → e.isFatal = false :=
    fun e => createNode_passes overwrites
  unfold storeNode
  split
  · rfl
  · next e t refused =>
    rw [refused] at passes
    simp only [passes e rfl, Bool.false_eq_true, if_false]

theorem storeNodes_cons_passed (p : Progress) {entry : Noted (Option NodeRecord)}
    {n : NodeRecord} (present : entry.value = some n)
    (passed : ((p.noting entry).storeNode n).1 = none)
    (entries : List (Noted (Option NodeRecord))) :
    p.storeNodes (entry :: entries) = ((p.noting entry).storeNode n).2.storeNodes entries := by
  rw [storeNodes_cons_some p present]
  split
  · next failed =>
    rw [failed] at passed
    cases passed
  · next p' stored => rw [stored]

private theorem storeNodes_passes {p : Progress} (wf : p.store.WellFormed)
    (overwrites : p.store.overwrite = true) (entries : List (Noted (Option NodeRecord))) :
    (p.storeNodes entries).1 = none := by
  induction entries generalizing p with
  | nil => rfl
  | cons entry entries ih =>
    cases present : entry.value with
    | none =>
      rw [storeNodes_cons_none p present]
      exact ih (p := p.noting entry) wf overwrites
    | some n =>
      have step := (p.noting entry).storeNode_edits wf n
      rw [storeNodes_cons_passed p present
        (storeNode_passes (p := p.noting entry) overwrites n)]
      exact ih (wf.edits step) ((wf.grows step).overwrite.trans overwrites)

end Progress

theorem ImportSource.unresolved_passes {s : Store} (settings : ImportSettings)
    (source : ImportSource) (wf : s.WellFormed) (overwrites : s.overwrite = true) :
    (source.unresolved settings s).1 = none := by
  have steps := source.tagged_edits settings s
  have still := (wf.grows steps).overwrite.trans overwrites
  exact Progress.storeNodes_passes (wf.edits steps) still _

end ContentImport
