import ContentImport.Proofs.Record.Reread
import ContentImport.Proofs.Store.FieldMap
import ContentImport.Proofs.Store.Reference
import ContentImport.Store.Import

/-!
Stores without unset fields. Records that are read again leave a store in which the fields of nodes
are those that are set, an object with its members in order of keys; everything else, numbers
included, is the same. This projection passes over every write of a run.
-/

set_option autoImplicit false
set_option relaxedAutoImplicit false

namespace ContentImport

open ContentImport.Json (Value)
open ContentImport.Store

namespace Store

/-- The fields that are set, an object with its members in order of keys. -/
def setFields (fields : Table String Value) : Table String Value :=
  (fields.filter fun e => !Document.isUnset e.2).map fun e => (e.1, e.2.sorted)

def StoredNode.withSetFields (n : StoredNode) : StoredNode :=
  { n with fields := setFields n.fields }

def Repository.withSetFields (r : Repository) : Repository :=
  { r with nodes := r.nodes.map fun e => (e.1, e.2.withSetFields) }

def withSetFields (s : Store) : Store :=
  { s with repository := s.repository.withSetFields }

/-! ## Fields -/

private theorem setFields_cons_unset {name : String} {value : Value}
    (unset : Document.isUnset value = true)
    (fields : Table String Value) : setFields ((name, value) :: fields) = setFields fields := by
  simp [setFields, unset]

private theorem setFields_cons_set {name : String} {value : Value}
    (set : Document.isUnset value = false)
    (fields : Table String Value) :
    setFields ((name, value) :: fields) = (name, value.sorted) :: setFields fields := by
  simp [setFields, set]

private theorem setFields_put {fields : Table String Value} (ascending : fields.Ascending)
    (name : String)
    {value : Value} (set : Document.isUnset value = false) :
    setFields (Table.put name value fields) = Table.put name value.sorted (setFields fields) := by
  -- The entry that a key is put before, or in place of, may be unset and gone on the right.
  have front : ∀ {rest : Table String Value}, (∀ e ∈ rest, name < e.1) →
      Table.put name value.sorted (setFields rest) = (name, value.sorted) :: setFields rest := by
    intro rest behind
    refine Table.put_eq_cons (fun e member => ?_) _
    obtain ⟨old, held, rfl⟩ := List.mem_map.mp member
    exact behind old (List.mem_filter.mp held).1
  induction fields with
  | nil => simp [Table.put, setFields, set]
  | cons entry rest ih =>
    obtain ⟨k, v⟩ := entry
    obtain ⟨behind, ordered⟩ := List.pairwise_cons.mp ascending
    rw [Table.put]
    by_cases same : name = k
    · subst same
      rw [if_pos rfl, setFields_cons_set set]
      cases unset : Document.isUnset v with
      | true => rw [setFields_cons_unset unset, front behind]
      | false => rw [setFields_cons_set unset, Table.put, if_pos rfl]
    · rw [if_neg same]
      by_cases less : name < k
      · rw [if_pos less, setFields_cons_set set, front]
        intro e member
        rcases List.mem_cons.mp member with rfl | later
        · exact less
        · exact String.lt_trans less (behind e later)
      · rw [if_neg less]
        cases unset : Document.isUnset v with
        | true => rw [setFields_cons_unset unset, setFields_cons_unset unset, ih ordered]
        | false =>
          rw [setFields_cons_set unset, setFields_cons_set unset, ih ordered, Table.put,
            if_neg same, if_neg less]

/-! ## Files -/

variable (s : Store)

private theorem fileFor_withSetFields (uri : String) :
    s.withSetFields.fileFor uri = ((s.fileFor uri).1, (s.fileFor uri).2.withSetFields) := by
  have same : s.withSetFields.repository.fileId? uri = s.repository.fileId? uri := rfl
  unfold fileFor
  rw [same]
  cases s.repository.fileId? uri <;> rfl

private theorem itemValues_reread (items : List FieldItem) :
    s.withSetFields.itemValues (items.map FieldItem.reread) =
      ((s.itemValues items).1, (s.itemValues items).2.withSetFields) := by
  -- References are stored as they are written, so those that are read again are stored alike.
  induction items generalizing s with
  | nil => rfl
  | cons item items ih =>
    cases item with
    | file uri =>
      simp only [List.map_cons, FieldItem.reread, itemValues, fileFor_withSetFields, ih]
    | _ =>
      simp only [List.map_cons, FieldItem.reread, itemValues, ih, FieldItem.toJson]

private theorem itemValues_literals {items : List FieldItem}
    (plain : ∀ item ∈ items, ∃ text, item = .literal text) :
    s.itemValues items = (items.map fun item => item.toJson.sorted, s) := by
  induction items with
  | nil => rfl
  | cons item items ih =>
    obtain ⟨first, others⟩ := List.forall_mem_cons.mp plain
    obtain ⟨text, rfl⟩ := first
    simp only [itemValues, ih others]
    rfl

/-! ## Values of fields -/

variable {f g : FieldRecord}

private theorem isUnset_fieldValue? (mapped : f.Mapped) (value : Value)
    (stored : (s.fieldValue? f).1 = some value) : Document.isUnset value = f.isUnset := by
  cases mapped with
  | body name b =>
    obtain rfl := Option.some.inj stored
    exact (Document.isUnset_sorted_body b).symm
  | literals name values =>
    obtain rfl := Option.some.inj stored
    rfl
  | texts name items plain =>
    obtain rfl := Option.some.inj stored
    rfl
  | references name items kind =>
    cases kind with
    | file =>
      obtain rfl := Option.some.inj stored
      rfl
    | _ => cases stored

private theorem fieldValue?_reread (mapped : f.Mapped) (again : f.reread = some g) :
    s.withSetFields.fieldValue? g =
      ((s.fieldValue? f).1.map Value.sorted, (s.fieldValue? f).2.withSetFields) := by
  unfold FieldRecord.reread at again
  split at again
  · cases again
  · cases mapped with
    | body name b =>
      obtain rfl := Option.some.inj again
      rfl
    | literals name values =>
      obtain rfl := Option.some.inj again
      rfl
    | texts name items plain =>
      obtain rfl := Option.some.inj again
      have stored : s.fieldValue? (.named name (.references items) none) =
          (some (.list (s.itemValues items).1), (s.itemValues items).2) := rfl
      rw [stored, s.itemValues_literals plain]
      rfl
    | references name items kind =>
      obtain rfl := Option.some.inj again
      cases kind with
      | file =>
        have stored : ∀ (t : Store) (items : List FieldItem),
            t.fieldValue? (.named name (.references items) (some .file)) =
              (some (.list (t.itemValues items).1), (t.itemValues items).2) := fun _ _ => rfl
        refine (stored _ _).trans ?_
        rw [stored, s.itemValues_reread]
        rfl
      | _ => rfl

/-! ## Writing fields -/

/-- What was written of fields, and what was written of those that are read again. -/
structure Settles (written again : WrittenFields × Store) : Prop where
  values : again.1.values = setFields written.1.values
  store : again.2 = written.2.withSetFields

variable {written again : WrittenFields × Store}

private theorem reread_fieldName (reread : f.reread = some g) : g.fieldName = f.fieldName := by
  unfold FieldRecord.reread at reread
  split at reread
  · cases reread
  · split at reread <;> (obtain rfl := Option.some.inj reread; rfl)

private theorem Settles.writeField (settles : Settles written again)
    (ascending : written.1.values.Ascending) (accepted : Option (List String)) (mapped : f.Mapped)
    (set : f.isUnset = false) (reread : f.reread = some g) :
    Settles (Store.writeField accepted written f) (Store.writeField accepted again g) := by
  obtain ⟨w, s⟩ := written
  obtain ⟨w', s'⟩ := again
  obtain ⟨values, store⟩ := settles
  simp only at values store ascending
  subst store
  have unset := s.isUnset_fieldValue? mapped
  have stored := s.fieldValue?_reread mapped reread
  simp only [Store.writeField, reread_fieldName reread, stored]
  split
  · exact ⟨values, rfl⟩
  · cases outcome : s.fieldValue? f with
    | mk value t =>
      rw [outcome] at unset
      cases value with
      | none => exact ⟨values, rfl⟩
      | some value =>
        refine ⟨?_, rfl⟩
        have set : Document.isUnset value = false := (unset value rfl).trans set
        simp only [Option.map_some, values, setFields_put ascending _ set]

private theorem Settles.foldl_writeField (settles : Settles written again)
    (ascending : written.1.values.Ascending) (accepted : Option (List String))
    {fields : List FieldRecord} (mapped : ∀ f ∈ fields, f.Mapped)
    (set : ∀ f ∈ fields, f.isUnset = false) :
    Settles (fields.foldl (Store.writeField accepted) written)
      ((fields.filterMap FieldRecord.reread).foldl (Store.writeField accepted) again) := by
  induction fields generalizing written again with
  | nil => exact settles
  | cons f fields ih =>
    obtain ⟨first, others⟩ := List.forall_mem_cons.mp mapped
    obtain ⟨firstSet, othersSet⟩ := List.forall_mem_cons.mp set
    obtain ⟨g, reread⟩ : ∃ g, f.reread = some g := by
      rw [FieldRecord.reread, firstSet]
      simp only [Bool.false_eq_true, if_false]
      split <;> exact ⟨_, rfl⟩
    rw [List.filterMap_cons_some reread]
    exact ih (settles.writeField ascending accepted first firstSet reread)
      (writeField_ascending accepted ascending f) others othersSet

private theorem Settles.unset (accepted : Option (List String)) (mapped : f.Mapped)
    (unset : f.isUnset = true) :
    Settles (Store.writeField accepted (⟨[], []⟩, s) f) (⟨[], []⟩, s.withSetFields) := by
  have stored : ∃ value, s.fieldValue? f = (some value, s) := by
    cases mapped with
    | body name b => exact ⟨_, rfl⟩
    | _ => cases unset
  obtain ⟨value, stored⟩ := stored
  have void : Document.isUnset value = true :=
    (s.isUnset_fieldValue? mapped value (congrArg Prod.fst stored)).trans unset
  simp only [Store.writeField, stored]
  split
  · exact ⟨rfl, rfl⟩
  · exact ⟨(setFields_cons_unset void []).symm, rfl⟩

private theorem writeFields_reread {n : NodeRecord} (mapped : n.Mapped)
    (accepted : Option (List String)) :
    Settles (writeFields accepted s n.fields)
      (writeFields accepted s.withSetFields n.reread.fields) := by
  have start : Settles (⟨[], []⟩, s) (⟨[], []⟩, s.withSetFields) := ⟨rfl, rfl⟩
  have fields := mapped.fields
  have others := mapped.others
  -- Were an unset field to follow a set one of its name, it would take that one away.
  unfold writeFields NodeRecord.reread
  generalize n.fields = all at fields others ⊢
  cases all with
  | nil => exact start
  | cons f rest =>
    cases unset : f.isUnset with
    | false =>
      exact start.foldl_writeField .nil accepted fields (List.forall_mem_cons.mpr ⟨unset, others⟩)
    | true =>
      have left : f.reread = none := by simp [FieldRecord.reread, unset]
      obtain ⟨first, mapped⟩ := List.forall_mem_cons.mp fields
      have ascending := writeFields_ascending accepted s [f]
      rw [List.filterMap_cons_none left]
      exact (Settles.unset s accepted first unset).foldl_writeField ascending accepted mapped others

/-! ## Nodes -/

private theorem nodeByUuid?_withSetFields (r : Repository) (uuid : String) :
    r.withSetFields.nodeByUuid? uuid =
      (r.nodeByUuid? uuid).map fun e => (e.1, e.2.withSetFields) := by
  rw [Repository.nodeByUuid?, Repository.withSetFields, List.find?_map]
  rfl

private theorem removeNode_withSetFields (r : Repository) (id : EntityId) :
    r.withSetFields.removeNode id = (r.removeNode id).withSetFields := by
  have nodes : Table.erase r.withSetFields.nodes id =
      (Table.erase r.nodes id).map fun e => (e.1, e.2.withSetFields) := List.filter_map
  rw [Repository.removeNode, nodes]
  rfl

private theorem discard_withSetFields (uuid : String) :
    s.withSetFields.discard uuid = (s.discard uuid).withSetFields := by
  have found : s.withSetFields.repository.nodeByUuid? uuid =
      (s.repository.nodeByUuid? uuid).map fun e => (e.1, e.2.withSetFields) :=
    nodeByUuid?_withSetFields s.repository uuid
  unfold discard
  rw [found]
  cases s.repository.nodeByUuid? uuid with
  | none => rfl
  | some e =>
    have removed : s.withSetFields.repository.removeNode e.1 =
        (s.repository.removeNode e.1).withSetFields := removeNode_withSetFields s.repository e.1
    simp only [Option.map_some, dropNode, removed]
    rfl

private theorem putNode_withSetFields (n : NodeRecord) (values : Table String Value) :
    s.withSetFields.putNode n.reread (setFields values) = (s.putNode n values).withSetFields := by
  have nodes : Table.put (s.lastId + 1) ⟨n.uuid, n.title, n.bundle, setFields values⟩
      s.withSetFields.repository.nodes =
        (Table.put (s.lastId + 1) ⟨n.uuid, n.title, n.bundle, values⟩ s.repository.nodes).map
          fun e => (e.1, e.2.withSetFields) :=
    Table.put_map StoredNode.withSetFields (s.lastId + 1) ⟨n.uuid, n.title, n.bundle, values⟩
      s.repository.nodes
  have last : s.withSetFields.lastId = s.lastId := rfl
  unfold putNode
  simp only [NodeRecord.reread, last, nodes]
  cases n.pathAlias <;> rfl

end Store

/-! ## Fields that wait -/

/-- What waits of a field, under the number of its node. -/
def FieldRecord.deferred? (owner : EntityId) (f : FieldRecord) : Option DeferredReference := do
  let targets ← f.deferredTargets?
  let kind ← f.references
  pure ⟨owner, f.fieldName, kind, targets⟩

/-- What waits of a field that is read again. -/
def DeferredReference.reread (d : DeferredReference) : DeferredReference :=
  { d with targets := d.targets.map FieldItem.reread }

private theorem deferred?_reread {f : FieldRecord} (mapped : f.Mapped) (owner : EntityId) :
    f.reread.bind (·.deferred? owner) = (f.deferred? owner).map DeferredReference.reread := by
  cases mapped with
  | references name items kind => cases kind <;> rfl
  | body name b =>
    unfold FieldRecord.reread
    split <;> rfl
  | _ => rfl

private theorem splitDeferred_eq_filterMap {n : NodeRecord} {created : CreatedNode}
    {accepted : Option (List String)}
    (skipped : created.skippedFields =
      (n.fields.filter (refuses accepted)).map FieldRecord.fieldName) :
    splitDeferred n created =
      (n.fields.filter fun f => !refuses accepted f).filterMap (·.deferred? created.id) := by
  have same : ∀ f ∈ n.fields, (!created.skippedFields.contains f.fieldName) =
      !refuses accepted f := by
    intro f member
    rw [skipped, Bool.not_inj_iff, Bool.eq_iff_iff, List.contains_iff_mem]
    exact mem_names_refused member
  rw [splitDeferred, List.filter_congr same]
  rfl

private theorem splitDeferred_reread {n : NodeRecord} (mapped : n.Mapped)
    {created again : CreatedNode}
    (id : again.id = created.id) {accepted : Option (List String)}
    (skipped : created.skippedFields =
      (n.fields.filter (refuses accepted)).map FieldRecord.fieldName)
    (skippedAgain : again.skippedFields =
      (n.reread.fields.filter (refuses accepted)).map FieldRecord.fieldName) :
    splitDeferred n.reread again = (splitDeferred n created).map DeferredReference.reread := by
  rw [splitDeferred_eq_filterMap skipped, splitDeferred_eq_filterMap skippedAgain, id]
  have fields := mapped.fields
  unfold NodeRecord.reread
  generalize n.fields = all at fields
  induction all with
  | nil => rfl
  | cons f rest ih =>
    obtain ⟨first, others⟩ := List.forall_mem_cons.mp fields
    have waits := deferred?_reread first created.id
    have ih := ih others
    cases again : f.reread with
    | none =>
      rw [again] at waits
      have idle : f.deferred? created.id = none := Option.map_eq_none_iff.mp waits.symm
      rw [List.filterMap_cons_none again, List.filter_cons, ih]
      split
      · rw [List.filterMap_cons_none idle]
      · rfl
    | some g =>
      rw [again] at waits
      have refused : refuses accepted g = refuses accepted f := by
        rw [refuses, reread_fieldName again, refuses]
      rw [List.filterMap_cons_some again, List.filter_cons, List.filter_cons, refused]
      split
      · have waits : g.deferred? created.id =
            (f.deferred? created.id).map DeferredReference.reread := waits
        rw [List.filterMap_cons, List.filterMap_cons, ih, waits]
        cases f.deferred? created.id <;> rfl
      · exact ih

namespace Store

variable (s : Store)

/-- A node that is read again is created alike, or refused for the same reason. -/
theorem createNode_reread {n : NodeRecord} (mapped : n.Mapped) :
    (s.withSetFields.createNode n.reread).2 = (s.createNode n).2.withSetFields ∧
      (s.withSetFields.createNode n.reread).1.map (splitDeferred n.reread) =
        (s.createNode n).1.map fun created =>
          (splitDeferred n created).map DeferredReference.reread := by
  have found : (s.withSetFields.repository.nodeByUuid? n.uuid).isSome =
      (s.repository.nodeByUuid? n.uuid).isSome := by
    have projected := nodeByUuid?_withSetFields s.repository n.uuid
    exact (congrArg Option.isSome projected).trans Option.isSome_map
  have title : n.reread.title = n.title := rfl
  have uuid : n.reread.uuid = n.uuid := rfl
  have bundle : n.reread.bundle = n.bundle := rfl
  have fields : s.withSetFields.bundleFields n.bundle = s.bundleFields n.bundle := rfl
  have overwrite : s.withSetFields.overwrite = s.overwrite := rfl
  rw [createNode_eq, createNode_eq, title, uuid, bundle, fields, overwrite, found]
  split
  · exact ⟨rfl, rfl⟩
  · split
    · exact ⟨rfl, rfl⟩
    · split
      · exact ⟨discard_withSetFields s n.uuid, rfl⟩
      · next accepted known =>
        rw [discard_withSetFields]
        have settles := writeFields_reread (s.discard n.uuid) mapped accepted
        have skipped := writeFields_skipped (s.discard n.uuid) accepted n.fields
        have skippedAgain := writeFields_skipped (s.discard n.uuid).withSetFields accepted
          n.reread.fields
        refine ⟨?_, ?_⟩
        · simp only [settles.values, settles.store, putNode_withSetFields]
        · refine congrArg Except.ok (splitDeferred_reread mapped ?_ skipped skippedAgain)
          simp only [settles.store]
          rfl

/-! ## References -/

theorem insertReferences_withSetFields (wf : s.WellFormed) (writes : List ReferenceWrite) :
    s.withSetFields.insertReferences writes = (s.insertReferences writes).withSetFields := by
  have fields : ∀ (id : EntityId) {fields : Table String Value}, fields.Ascending →
      writtenFields writes id (setFields fields) = setFields (writtenFields writes id fields) := by
    intro id
    unfold writtenFields
    induction writes with
    | nil => exact fun _ => rfl
    | cons w writes ih =>
      intro fields ascending
      rw [List.foldl_cons, List.foldl_cons]
      split
      · have set : Document.isUnset (referenceValue w.targetIds) = false := rfl
        have sorted : (referenceValue w.targetIds).sorted = referenceValue w.targetIds := rfl
        rw [← sorted, ← setFields_put ascending w.fieldName set]
        exact ih (ascending.put _ _)
      · exact ih ascending
  have nodes : (s.withSetFields.repository.nodes.map fun e =>
      (e.1, { e.2 with fields := writtenFields writes e.1 e.2.fields })) =
        (s.repository.nodes.map fun e =>
          (e.1, { e.2 with fields := writtenFields writes e.1 e.2.fields })).map fun e =>
            (e.1, e.2.withSetFields) := by
    simp only [withSetFields, Repository.withSetFields, List.map_map]
    refine List.map_congr_left fun e member => ?_
    simp only [Function.comp_apply, StoredNode.withSetFields,
      fields e.1 (wf.consistent.fieldsAscending e member)]
  rw [insertReferences_eq, insertReferences_eq, nodes]
  rfl

theorem rollback_withSetFields : s.withSetFields.rollback = s.rollback.withSetFields := by
  have removed : ∀ (ids : List EntityId) (r : Repository),
      ids.foldl Repository.removeNode r.withSetFields =
        (ids.foldl Repository.removeNode r).withSetFields := by
    intro ids
    induction ids with
    | nil => exact fun _ => rfl
    | cons id ids ih =>
      intro r
      rw [List.foldl_cons, List.foldl_cons, removeNode_withSetFields, ih]
  have folded := removed s.ledger.rollbackPlan.nodes
    { s.repository with
      paths := s.ledger.rollbackPlan.paths.foldl Table.erase s.repository.paths }
  let finish (r : Repository) : Store :=
    { s with
      repository :=
        { r with
          files := s.ledger.rollbackPlan.files.foldl Table.erase r.files
          tags := s.ledger.rollbackPlan.tags.foldl Table.erase r.tags
          vocabularies :=
            s.ledger.rollbackPlan.vocabularies.foldl Table.erase r.vocabularies }
      ledger := .empty }
  exact congrArg finish folded

end Store

end ContentImport
