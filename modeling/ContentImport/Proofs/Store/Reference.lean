import ContentImport.Proofs.Store.WellFormed

/-!
References of stored nodes. Writing them changes the fields of the nodes that they are of, one field
after the other, and nothing else; of several writes of one field the last one counts.
-/

set_option autoImplicit false
set_option relaxedAutoImplicit false

namespace ContentImport

open ContentImport.Store

/-- What a reference field holds once it is written: the number of each target, or nothing. -/
def referenceValue (targetIds : List (Option EntityId)) : Json.Value :=
  .list (targetIds.map (Json.Value.ofOption .nat))

/-- The fields of a node after writes to it and to others. -/
def writtenFields (writes : List ReferenceWrite) (id : EntityId)
    (fields : Table String Json.Value) : Table String Json.Value :=
  writes.foldl (fun fields w =>
    if w.node = id then Table.put w.fieldName (referenceValue w.targetIds) fields
    else fields) fields

theorem get?_writtenFields_of_forall_ne {writes : List ReferenceWrite} {id : EntityId}
    {name : String} (others : ∀ w ∈ writes, w.node = id → w.fieldName ≠ name)
    (fields : Table String Json.Value) :
    Table.get? (writtenFields writes id fields) name = Table.get? fields name := by
  induction writes generalizing fields with
  | nil => rfl
  | cons w writes ih =>
    obtain ⟨first, rest⟩ := List.forall_mem_cons.mp others
    rw [writtenFields, List.foldl_cons]
    refine (ih rest _).trans ?_
    split
    · next same => rw [Table.get?_put, if_neg (first same)]
    · rfl

theorem writtenFields_of_forall_ne {writes : List ReferenceWrite} {id : EntityId}
    (others : ∀ w ∈ writes, w.node ≠ id) (fields : Table String Json.Value) :
    writtenFields writes id fields = fields := by
  induction writes generalizing fields with
  | nil => rfl
  | cons w writes ih =>
    obtain ⟨first, rest⟩ := List.forall_mem_cons.mp others
    rw [writtenFields, List.foldl_cons, if_neg first]
    exact ih rest fields

theorem get?_writtenFields (before : List ReferenceWrite) (w : ReferenceWrite)
    {after : List ReferenceWrite}
    (last : ∀ later ∈ after, later.node = w.node → later.fieldName ≠ w.fieldName)
    (fields : Table String Json.Value) :
    Table.get? (writtenFields (before ++ w :: after) w.node fields) w.fieldName =
      some (referenceValue w.targetIds) := by
  rw [writtenFields, List.foldl_append, List.foldl_cons, if_pos rfl]
  refine (get?_writtenFields_of_forall_ne last _).trans ?_
  rw [Table.get?_put, if_pos rfl]

theorem exists_get?_writtenFields {writes : List ReferenceWrite} {id : EntityId} {name : String}
    (written : ∃ w ∈ writes, w.node = id ∧ w.fieldName = name) (fields : Table String Json.Value) :
    ∃ w ∈ writes, w.node = id ∧ w.fieldName = name ∧
      Table.get? (writtenFields writes id fields) name = some (referenceValue w.targetIds) := by
  induction writes generalizing fields with
  | nil =>
    obtain ⟨w, member, -⟩ := written
    cases member
  | cons w writes ih =>
    by_cases later : ∃ w ∈ writes, w.node = id ∧ w.fieldName = name
    · obtain ⟨w', member, node, field, value⟩ := ih later
        (if w.node = id then Table.put w.fieldName (referenceValue w.targetIds) fields else fields)
      exact ⟨w', List.mem_cons_of_mem _ member, node, field, value⟩
    · obtain ⟨w', member, rfl, rfl⟩ := written
      rcases List.mem_cons.mp member with rfl | behind
      · have last : ∀ later ∈ writes, later.node = w'.node → later.fieldName ≠ w'.fieldName :=
          fun w'' member node field => later ⟨w'', member, node, field⟩
        exact ⟨w', member, rfl, rfl, get?_writtenFields [] w' last fields⟩
      · exact absurd ⟨w', behind, rfl, rfl⟩ later

namespace Store

theorem insertReferences_eq (s : Store) (writes : List ReferenceWrite) :
    s.insertReferences writes =
      { s with
        repository :=
          { s.repository with
            nodes := s.repository.nodes.map fun e =>
              (e.1, { e.2 with fields := writtenFields writes e.1 e.2.fields }) } } := by
  induction writes generalizing s with
  | nil => simp [insertReferences, writtenFields]
  | cons w writes ih =>
    rw [insertReferences, List.foldl_cons]
    refine (ih (s.insertReference w)).trans ?_
    have nodes : ((s.insertReference w).repository.nodes.map fun e =>
        (e.1, { e.2 with fields := writtenFields writes e.1 e.2.fields })) =
        s.repository.nodes.map fun e =>
          (e.1, { e.2 with fields := writtenFields (w :: writes) e.1 e.2.fields }) := by
      simp only [insertReference, Table.adjust, List.map_map]
      refine List.map_congr_left ?_
      intro e _
      simp only [Function.comp_apply, writtenFields, List.foldl_cons, eq_comm (a := w.node)]
      split <;> rfl
    rw [nodes]
    rfl

variable (s : Store) (writes : List ReferenceWrite)

theorem insertReferences_nodes :
    (s.insertReferences writes).repository.nodes = s.repository.nodes.map fun e =>
      (e.1, { e.2 with fields := writtenFields writes e.1 e.2.fields }) := by
  rw [insertReferences_eq]

@[simp] theorem insertReferences_vocabularies :
    (s.insertReferences writes).repository.vocabularies = s.repository.vocabularies := by
  rw [insertReferences_eq]

@[simp] theorem insertReferences_tags :
    (s.insertReferences writes).repository.tags = s.repository.tags := by
  rw [insertReferences_eq]

@[simp] theorem insertReferences_files :
    (s.insertReferences writes).repository.files = s.repository.files := by
  rw [insertReferences_eq]

@[simp] theorem insertReferences_paths :
    (s.insertReferences writes).repository.paths = s.repository.paths := by
  rw [insertReferences_eq]

end Store

end ContentImport
