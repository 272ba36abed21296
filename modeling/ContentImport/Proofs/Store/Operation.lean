import ContentImport.Proofs.Store.Growth

/-!
Operations of the store. Each is a sequence of edits within its scope, and a store that operations
lead to from one without entities is well-formed, with a ledger that records its run.
-/

set_option autoImplicit false
set_option relaxedAutoImplicit false

namespace ContentImport

open ContentImport.Store

namespace Store

variable {scope : Scope} {s t : Store}

/-! ## Vocabularies -/

theorem createVocabulary_edits (s : Store) {id : String} (name : String)
    (within : scope.vocabularies id = true) : Edits scope s (s.createVocabulary id name) := by
  unfold createVocabulary
  split
  · split
    · next overwrites => exact .single (Edit.clearVocabulary within overwrites)
    · exact .refl
  · next missing => exact .single (Edit.putVocabulary name (Bool.eq_false_iff.mpr missing))

@[simp] theorem createVocabulary_holds (s : Store) (id name : String) :
    Table.holds (s.createVocabulary id name).repository.vocabularies id = true := by
  unfold createVocabulary
  split
  · next held => split <;> exact held
  · simp [Table.holds, Table.get?_put]

@[simp] theorem addTag_vocabularies (s : Store) (vocabularyId name : String) :
    (s.addTag vocabularyId name).repository.vocabularies = s.repository.vocabularies := by
  unfold addTag
  split <;> rfl

theorem addTag_edits (s : Store) {vocabularyId : String} (name : String)
    (within : scope.vocabularies vocabularyId = true)
    (housed : Table.holds s.repository.vocabularies vocabularyId = true) :
    Edits scope s (s.addTag vocabularyId name) := by
  unfold addTag
  split
  · exact .refl
  · next named => exact .single (Edit.putTag within named housed)

theorem createTag_eq {vocabularyId : String} (name : String)
    (housed : Table.holds s.repository.vocabularies vocabularyId = true) :
    s.createTag vocabularyId name = .ok (s.addTag vocabularyId name) := by
  unfold createTag
  split
  · next unnamed => rw [addTag, if_pos unnamed]
  · rfl

private theorem createTag_edits {vocabularyId name : String}
    (within : scope.vocabularies vocabularyId = true)
    (created : s.createTag vocabularyId name = .ok t) : Edits scope s t := by
  unfold createTag at created
  split at created
  · obtain rfl := Except.ok.inj created
    exact .refl
  · split at created
    · next housed =>
      obtain rfl := Except.ok.inj created
      exact addTag_edits s name within housed
    · cases created

private theorem linkParents_edits (s : Store) {vocabularyId : String} (link : TagParents)
    (within : scope.vocabularies vocabularyId = true) :
    Edits scope s (linkParents vocabularyId s link) := by
  unfold linkParents
  split
  · exact .refl
  · split
    · exact .refl
    · next found => exact .single (Edit.setParents within found link.parents)

theorem setTagParents_edits (s : Store) {vocabularyId : String} (links : List TagParents)
    (within : scope.vocabularies vocabularyId = true) :
    Edits scope s (s.setTagParents vocabularyId links) := by
  unfold setTagParents
  induction links generalizing s with
  | nil => exact .refl
  | cons link links ih => exact (linkParents_edits s link within).trans (ih _)

/-! ## Fields -/

/-- A file was put behind all others. -/
inductive Filing (s : Store) : Store → Prop
  | putFile {uri : String} (absent : s.repository.fileId? uri = none) : Filing s (s.putFile uri)

abbrev Filings : Store → Store → Prop :=
  Relation.ReflTransGen Filing

theorem Filings.edits (steps : Filings s t) : Edits scope s t := by
  induction steps with
  | refl => exact .refl
  | tail _ step ih =>
    obtain ⟨absent⟩ := step
    exact ih.tail (.putFile absent)

theorem Filings.frame (steps : Filings s t) :
    ∃ files entered last, t =
      { s with
        repository := { s.repository with files }
        ledger := { s.ledger with files := entered }
        lastId := last } := by
  induction steps with
  | refl => exact ⟨_, _, _, rfl⟩
  | tail _ step ih =>
    obtain ⟨files, entered, last, rfl⟩ := ih
    cases step
    exact ⟨_, _, _, rfl⟩

theorem fileFor_filings (s : Store) (uri : String) : Filings s (s.fileFor uri).2 := by
  unfold fileFor
  split
  · exact .refl
  · next absent => exact .single (.putFile absent)

theorem itemValues_filings (s : Store) (items : List FieldItem) :
    Filings s (s.itemValues items).2 := by
  induction items generalizing s with
  | nil => exact .refl
  | cons item items ih =>
    cases item with
    | file uri => exact (fileFor_filings s uri).trans (ih _)
    | node uuid => exact ih _
    | tag ref => exact ih _
    | literal value => exact ih _

private theorem fieldValue?_filings (s : Store) (f : FieldRecord) : Filings s
    (s.fieldValue? f).2 := by
  unfold fieldValue?
  split
  · exact .refl
  · split
    · exact itemValues_filings s _
    · exact .refl

def writeFields (accepted : Option (List String)) (s : Store) (fields : List FieldRecord) :
    WrittenFields × Store :=
  fields.foldl (writeField accepted) (⟨[], []⟩, s)

theorem writeField_filings (accepted : Option (List String)) (state : WrittenFields × Store)
    (f : FieldRecord) : Filings state.2 (writeField accepted state f).2 := by
  have filed := fieldValue?_filings state.2 f
  simp only [writeField]
  split
  · exact .refl
  · split <;> next stored => rwa [stored] at filed

theorem writeField_ascending (accepted : Option (List String)) {state : WrittenFields × Store}
    (ascending : state.1.values.Ascending) (f : FieldRecord) :
    (writeField accepted state f).1.values.Ascending := by
  simp only [writeField]
  split
  · exact ascending
  · split
    · exact ascending.put _ _
    · exact ascending

theorem foldl_writeField_filings (accepted : Option (List String)) (fields : List FieldRecord)
    (state : WrittenFields × Store) :
    Filings state.2 (fields.foldl (writeField accepted) state).2 := by
  induction fields generalizing state with
  | nil => exact .refl
  | cons f fields ih => exact (writeField_filings accepted state f).trans (ih _)

theorem writeFields_filings (accepted : Option (List String)) (s : Store)
    (fields : List FieldRecord) : Filings s (writeFields accepted s fields).2 :=
  foldl_writeField_filings accepted fields (⟨[], []⟩, s)

theorem writeFields_ascending (accepted : Option (List String)) (s : Store)
    (fields : List FieldRecord) : (writeFields accepted s fields).1.values.Ascending := by
  have kept : ∀ state : WrittenFields × Store, state.1.values.Ascending →
      (fields.foldl (writeField accepted) state).1.values.Ascending := by
    induction fields with
    | nil => exact fun state ascending => ascending
    | cons f fields ih =>
      exact fun state ascending => ih _ (writeField_ascending accepted ascending f)
  exact kept (⟨[], []⟩, s) List.Pairwise.nil

/-! ## Nodes -/

/-- The store without the node of a uuid, where there is one. -/
def discard (s : Store) (uuid : String) : Store :=
  match s.repository.nodeByUuid? uuid with
  | none => s
  | some (id, _) => s.dropNode id

private theorem deleteNodeIfExists_eq (s : Store) (uuid : String) :
    s.deleteNodeIfExists uuid =
      if (s.repository.nodeByUuid? uuid).isSome && !s.overwrite then .error (.duplicateNode uuid)
      else .ok (s.discard uuid) := by
  unfold deleteNodeIfExists discard
  split
  · next absent => simp [absent]
  · next id node found =>
    by_cases overwrites : s.overwrite = true <;> simp [found, overwrites, dropNode]

theorem discard_edits (s : Store) {uuid : String} (within : scope.uuids uuid = true)
    (allowed : ((s.repository.nodeByUuid? uuid).isSome && !s.overwrite) = false) :
    Edits scope s (s.discard uuid) := by
  unfold discard
  split
  · exact .refl
  · next id node found =>
    refine .single (Edit.dropNode within ?_ found)
    simpa [found] using allowed

theorem WellFormed.nodeByUuid?_discard (wf : s.WellFormed) (uuid : String) :
    (s.discard uuid).repository.nodeByUuid? uuid = none := by
  unfold discard
  split
  · next absent => exact absent
  · next id node found =>
    obtain ⟨stored, named⟩ := Repository.mem_of_nodeByUuid? found
    rw [wf.dropNode_eq, Repository.nodeByUuid?_eq_none_iff]
    intro e member same
    obtain ⟨held, other⟩ := List.mem_filter.mp member
    have equal := wf.consistent.eq_of_uuid held stored (same.trans named.symm)
    simp [equal] at other

/-- A node is created behind the fields that it needs, once the node that has its uuid is gone. -/
theorem createNode_eq (s : Store) (n : NodeRecord) :
    s.createNode n =
      if n.title = "" then (.error (.untitledNode n.uuid), s)
      else if (s.repository.nodeByUuid? n.uuid).isSome && !s.overwrite then
        (.error (.duplicateNode n.uuid), s)
      else
        match s.bundleFields n.bundle with
        | .error e => (.error e, s.discard n.uuid)
        | .ok accepted =>
          let written := writeFields accepted (s.discard n.uuid) n.fields
          (.ok ⟨written.2.lastId + 1, written.1.skipped⟩,
            written.2.putNode n written.1.values) := by
  have model : (s.discard n.uuid).bundleFields n.bundle = s.bundleFields n.bundle := by
    unfold discard
    split <;> rfl
  unfold createNode
  rw [deleteNodeIfExists_eq]
  by_cases titled : n.title = ""
  · rw [if_pos titled, if_pos titled]
  · rw [if_neg titled, if_neg titled]
    by_cases refused : ((s.repository.nodeByUuid? n.uuid).isSome && !s.overwrite) = true
    · rw [if_pos refused, if_pos refused]
    · rw [if_neg refused, if_neg refused]
      simp only [model]
      rfl

theorem bundleFields_error {bundle : String} {e : StoreError}
    (refused : s.bundleFields bundle = .error e) : e = .unknownBundle bundle := by
  unfold bundleFields at refused
  split at refused
  · cases refused
  · split at refused
    · cases refused
    · exact (Except.error.inj refused).symm

theorem createNode_edits (wf : s.WellFormed) (n : NodeRecord)
    (within : n.title ≠ "" → scope.uuids n.uuid = true) : Edits scope s (s.createNode n).2 := by
  rw [createNode_eq]
  split
  · exact .refl
  · next titled =>
    split
    · exact .refl
    · next allowed =>
      have discarded := discard_edits s (within titled) (Bool.eq_false_iff.mpr allowed)
      split
      · exact discarded
      · next accepted known =>
        have filed := writeFields_filings accepted (s.discard n.uuid) n.fields
        have absent := wf.nodeByUuid?_discard n.uuid
        refine (discarded.trans filed.edits).tail ?_
        obtain ⟨files, entered, last, same⟩ := filed.frame
        refine .putNode (within titled) titled ?_ (writeFields_ascending _ _ _)
        rw [same]
        exact absent

theorem WellFormed.createNode_everything (wf : s.WellFormed) (n : NodeRecord) :
    Edits .everything s (s.createNode n).2 :=
  createNode_edits wf n fun _ => rfl

theorem createNode_ok_eq {n : NodeRecord} {created : CreatedNode}
    (accepted : s.createNode n = (.ok created, t)) :
    ((s.repository.nodeByUuid? n.uuid).isSome && !s.overwrite) = false ∧ ∃ fields,
      let written := writeFields fields (s.discard n.uuid) n.fields
      s.bundleFields n.bundle = .ok fields ∧
        created = ⟨written.2.lastId + 1, written.1.skipped⟩ ∧
          t = written.2.putNode n written.1.values := by
  rw [createNode_eq] at accepted
  split at accepted
  · cases accepted
  · split at accepted
    · cases accepted
    · next allowed =>
      split at accepted
      · cases accepted
      · next fields known =>
        obtain ⟨same, rfl⟩ := Prod.mk.inj accepted
        exact ⟨Bool.eq_false_iff.mpr allowed, fields, known, (Except.ok.inj same).symm, rfl⟩

theorem WellFormed.createNode_ok_written (wf : s.WellFormed) {n : NodeRecord}
    {created : CreatedNode} (accepted : s.createNode n = (.ok created, t)) : ∃ fields,
      let written := writeFields fields (s.discard n.uuid) n.fields
      (s.discard n.uuid).WellFormed ∧ written.2.WellFormed ∧ s.lastId ≤ written.2.lastId ∧
        created = ⟨written.2.lastId + 1, written.1.skipped⟩ ∧
          t = written.2.putNode n written.1.values := by
  obtain ⟨allowed, fields, -, same, put⟩ := createNode_ok_eq accepted
  have discarded : Edits .everything s (s.discard n.uuid) := discard_edits s rfl allowed
  have steps := discarded.trans (writeFields_filings fields (s.discard n.uuid) n.fields).edits
  exact ⟨fields, wf.edits discarded, wf.edits steps, (wf.grows steps).lastId, same, put⟩

private theorem WellFormed.createNode_ok_fields (wf : s.WellFormed) {n : NodeRecord}
    {created : CreatedNode} (accepted : s.createNode n = (.ok created, t)) :
    s.lastId < created.id ∧ created.id ≤ t.lastId ∧ ∃ fields,
      let written := writeFields fields (s.discard n.uuid) n.fields
      created.skippedFields = written.1.skipped ∧
        t.repository.nodes = (s.discard n.uuid).repository.nodes ++
          [(created.id, ⟨n.uuid, n.title, n.bundle, written.1.values⟩)] := by
  obtain ⟨fields, -, filed, later, rfl, rfl⟩ := wf.createNode_ok_written accepted
  obtain ⟨files, entered, last, same⟩ :=
    (writeFields_filings fields (s.discard n.uuid) n.fields).frame
  have nodes : (writeFields fields (s.discard n.uuid) n.fields).2.repository.nodes =
      (s.discard n.uuid).repository.nodes := by rw [same]
  rw [filed.putNode_eq]
  refine ⟨Nat.lt_succ_of_le later, Nat.le_add_right _ _, fields, rfl, ?_⟩
  rw [← nodes]

theorem WellFormed.createNode_ok (wf : s.WellFormed) {n : NodeRecord} {created : CreatedNode}
    (accepted : s.createNode n = (.ok created, t)) :
    s.lastId < created.id ∧ created.id ≤ t.lastId ∧ ∃ values,
      t.repository.nodes = (s.discard n.uuid).repository.nodes ++
        [(created.id, ⟨n.uuid, n.title, n.bundle, values⟩)] := by
  obtain ⟨behind, given, fields, -, nodes⟩ := wf.createNode_ok_fields accepted
  exact ⟨behind, given, _, nodes⟩

theorem createNode_error {n : NodeRecord} {e : StoreError}
    (refused : s.createNode n = (.error e, t)) : t = s ∨ t = s.discard n.uuid := by
  rw [createNode_eq] at refused
  split at refused
  · exact .inl (Prod.mk.inj refused).2.symm
  · split at refused
    · exact .inl (Prod.mk.inj refused).2.symm
    · split at refused
      · exact .inr (Prod.mk.inj refused).2.symm
      · cases refused

theorem mem_discard_nodes {uuid : String} {e : EntityId × StoredNode}
    (member : e ∈ (s.discard uuid).repository.nodes) : e ∈ s.repository.nodes := by
  unfold discard at member
  split at member
  · exact member
  · exact (List.mem_filter.mp member).1

@[simp] theorem discard_tags (s : Store) (uuid : String) :
    (s.discard uuid).repository.tags = s.repository.tags := by
  unfold discard
  split <;> rfl

@[simp] theorem putNode_tags (s : Store) (n : NodeRecord) (values : Table String Json.Value) :
    (s.putNode n values).repository.tags = s.repository.tags := by
  unfold putNode
  cases n.pathAlias <;> rfl

@[simp] theorem createNode_tags (s : Store) (n : NodeRecord) :
    (s.createNode n).2.repository.tags = s.repository.tags := by
  rw [createNode_eq]
  split
  · rfl
  · split
    · rfl
    · split
      · exact discard_tags s n.uuid
      · next accepted known =>
        obtain ⟨files, entered, last, same⟩ :=
          (writeFields_filings accepted (s.discard n.uuid) n.fields).frame
        simp only [putNode_tags, same, discard_tags]

/-! ## Reachable stores -/

/-- What a store is asked to do. -/
inductive Operation where
  | createVocabulary (id name : String)
  | createTag (vocabularyId name : String)
  | setTagParents (vocabularyId : String) (links : List TagParents)
  | createNode (n : NodeRecord)
  | insertReferences (writes : List ReferenceWrite)
  | rollback
  | commit

/-- Do what is asked; a refusal to create a tag leaves the store as it is. -/
def Operation.apply (s : Store) : Operation → Store
  | .createVocabulary id name => s.createVocabulary id name
  | .createTag vocabularyId name =>
    match s.createTag vocabularyId name with
    | .ok created => created
    | .error _ => s
  | .setTagParents vocabularyId links => s.setTagParents vocabularyId links
  | .createNode n => (s.createNode n).2
  | .insertReferences writes => s.insertReferences writes
  | .rollback => s.rollback
  | .commit => s.commit

/-- The stores that operations lead to from a store without entities. -/
inductive Reachable : Store → Prop
  | empty (overwrite : Bool) (contentModel : Table String (List String)) :
      Reachable (Store.empty overwrite contentModel)
  | operation {s : Store} (before : Reachable s) (op : Operation) : Reachable (op.apply s)

theorem Reachable.operations (reachable : Reachable s) (ops : List Operation) :
    Reachable (ops.foldl Operation.apply s) := by
  induction ops generalizing s with
  | nil => exact reachable
  | cons op ops ih => exact ih (reachable.operation op)

def Operation.endsRun : Operation → Bool
  | .rollback => true
  | .commit => true
  | _ => false

theorem WellFormed.operation_within (wf : s.WellFormed) {op : Operation}
    (within : op.endsRun = false) :
    Edits .everything s (op.apply s) ∨ ∃ writes, op.apply s = s.insertReferences writes := by
  cases op with
  | createVocabulary id name => exact .inl (createVocabulary_edits s name rfl)
  | createTag vocabularyId name =>
    refine .inl ?_
    simp only [Operation.apply]
    split
    · next created stored => exact createTag_edits rfl stored
    · exact .refl
  | setTagParents vocabularyId links => exact .inl (setTagParents_edits s links rfl)
  | createNode n => exact .inl (wf.createNode_everything n)
  | insertReferences writes => exact .inr ⟨writes, rfl⟩
  | rollback => cases within
  | commit => cases within

/-- An operation makes edits, writes references or ends a run. -/
theorem WellFormed.operation_cases (wf : s.WellFormed) (op : Operation) :
    Edits .everything s (op.apply s) ∨ (∃ writes, op.apply s = s.insertReferences writes) ∨
      op.apply s = s.rollback ∨ op.apply s = s.commit := by
  cases ends : op.endsRun with
  | false => exact (wf.operation_within ends).imp_right .inl
  | true =>
    cases op with
    | rollback => exact .inr (.inr (.inl rfl))
    | commit => exact .inr (.inr (.inr rfl))
    | _ => cases ends

/-- A store that is well-formed, with a ledger that records its run. -/
structure Sound (s : Store) : Prop where
  wellFormed : s.WellFormed
  journal : ∃ mark, Journal mark s

namespace Sound

private theorem edits (sound : s.Sound) (steps : Edits scope s t) : t.Sound := by
  obtain ⟨mark, journal⟩ := sound.journal
  exact ⟨sound.wellFormed.edits steps, mark, journal.edits sound.wellFormed steps⟩

private theorem insertReferences (sound : s.Sound) (writes : List ReferenceWrite) :
    (s.insertReferences writes).Sound := by
  obtain ⟨mark, journal⟩ := sound.journal
  exact ⟨sound.wellFormed.insertReferences writes, mark, journal.insertReferences writes⟩

private theorem rollback (sound : s.Sound) : s.rollback.Sound := by
  obtain ⟨mark, journal⟩ := sound.journal
  have wf := journal.rollback_wellFormed sound.wellFormed
  exact ⟨wf, _, wf.journal rfl⟩

private theorem commit (sound : s.Sound) : s.commit.Sound := by
  have wf : s.commit.WellFormed := ⟨sound.wellFormed.consistent, sound.wellFormed.given⟩
  exact ⟨wf, _, wf.journal rfl⟩

theorem operation (sound : s.Sound) (op : Operation) : (op.apply s).Sound := by
  rcases sound.wellFormed.operation_cases op with steps | ⟨writes, same⟩ | same | same
  · exact sound.edits steps
  · exact same ▸ sound.insertReferences writes
  · exact same ▸ sound.rollback
  · exact same ▸ sound.commit

end Sound

/-- Every reachable store is well-formed, and its ledger records its run. -/
theorem Reachable.sound (reachable : Reachable s) : s.Sound := by
  induction reachable with
  | empty overwrite contentModel =>
    have wf := WellFormed.empty overwrite contentModel
    exact ⟨wf, _, wf.journal rfl⟩
  | operation _ op ih => exact ih.operation op

end Store

end ContentImport
