import ContentImport.Proofs.Store.Reference
import ContentImport.Proofs.Store.Renaming
import Mathlib.Data.List.Induction

/-!
Repositories that are equal up to a renaming of numbers. The renaming is applied to the numbers of
tags, nodes and paths, to the nodes that paths are of, to the parents of tags, and to the numbers in
reference fields; everything else is literally equal.
-/

set_option autoImplicit false
set_option relaxedAutoImplicit false

namespace ContentImport.Store

variable {ρ : EntityId → EntityId}

/-- The value of a reference field with other numbers, or the same value of any other field. -/
def ValueRenamed (ρ : EntityId → EntityId) (reference : Prop) (v v' : Json.Value) : Prop :=
  (reference → ∃ ids, v = referenceValue ids ∧ v' = referenceValue (ids.map (Option.map ρ))) ∧
    (¬ reference → v' = v)

/-- A node with another number, and with other numbers in the reference fields of a list. -/
structure NodeRenamed (ρ : EntityId → EntityId) (references : List (EntityId × String))
    (e e' : EntityId × StoredNode) : Prop where
  id : e'.1 = ρ e.1
  uuid : e'.2.uuid = e.2.uuid
  title : e'.2.title = e.2.title
  bundle : e'.2.bundle = e.2.bundle
  fields : List.Forall₂
    (fun f f' => f'.1 = f.1 ∧ ValueRenamed ρ ((e.1, f.1) ∈ references) f.2 f'.2)
    e.2.fields e'.2.fields

/-- A repository with other numbers. -/
structure Repository.Renamed (ρ : EntityId → EntityId) (references : List (EntityId × String))
    (r r' : Repository) : Prop where
  vocabularies : r'.vocabularies = r.vocabularies
  files : r'.files = r.files
  tags : r'.tags = r.tags.map (renameTag ρ)
  paths : r'.paths = r.paths.map (renamePath ρ)
  nodes : List.Forall₂ (NodeRenamed ρ references) r.nodes r'.nodes

def renameWrite (ρ : EntityId → EntityId) (w : ReferenceWrite) : ReferenceWrite :=
  { w with node := ρ w.node, targetIds := w.targetIds.map (Option.map ρ) }

theorem valueRenamed_congr {p q : Prop} (same : p ↔ q) {v v' : Json.Value}
    (renamed : ValueRenamed ρ p v v') : ValueRenamed ρ q v v' :=
  ⟨fun reference => renamed.1 (same.mpr reference),
    fun other => renamed.2 fun reference => other (same.mp reference)⟩

private theorem writtenFields_ascending {fields : Table String Json.Value}
    (ascending : fields.Ascending)
    (writes : List ReferenceWrite) (id : EntityId) :
    (writtenFields writes id fields).Ascending := by
  unfold writtenFields
  induction writes generalizing fields with
  | nil => exact ascending
  | cons w writes ih =>
    rw [List.foldl_cons]
    split
    · exact ih (ascending.put _ _)
    · exact ih ascending

private theorem writtenFields_append (writes : List ReferenceWrite) (w : ReferenceWrite)
    (id : EntityId) (fields : Table String Json.Value) :
    writtenFields (writes ++ [w]) id fields =
      if w.node = id then
        Table.put w.fieldName (referenceValue w.targetIds) (writtenFields writes id fields)
      else writtenFields writes id fields := by
  simp only [writtenFields, List.foldl_append, List.foldl_cons, List.foldl_nil]

/-- A field of a node is among those that writes are for. -/
def IsWritten (writes : List ReferenceWrite) (id : EntityId) (name : String) : Prop :=
  ∃ w ∈ writes, w.node = id ∧ w.fieldName = name

private theorem isWritten_append {writes : List ReferenceWrite} {w : ReferenceWrite}
    {id : EntityId} {name : String} :
    IsWritten (writes ++ [w]) id name ↔
      IsWritten writes id name ∨ w.node = id ∧ w.fieldName = name := by
  simp only [IsWritten, List.mem_append, List.mem_singleton, or_and_right, exists_or,
    exists_eq_left]

theorem writtenFields_renamed {id : EntityId} {fields : Table String Json.Value}
    (ascending : fields.Ascending) {writes : List ReferenceWrite}
    (injective : ∀ w ∈ writes, ρ w.node = ρ id ↔ w.node = id) :
    List.Forall₂ (fun f f' => f'.1 = f.1 ∧ ValueRenamed ρ (IsWritten writes id f.1) f.2 f'.2)
      (writtenFields writes id fields)
      (writtenFields (writes.map (renameWrite ρ)) (ρ id) fields) := by
  -- From the end, because a later write of a field replaces an earlier one.
  induction writes using List.reverseRecOn with
  | nil =>
    refine List.forall₂_same.mpr ?_
    intro f _
    refine ⟨rfl, fun reference => ?_, fun _ => rfl⟩
    obtain ⟨w, member, -⟩ := reference
    cases member
  | append_singleton writes w ih =>
    have before := ih fun w member => injective w (List.mem_append_left _ member)
    have last := injective w (List.mem_append_right _ List.mem_cons_self)
    have renamedNode : (renameWrite ρ w).node = ρ id ↔ w.node = id := last
    rw [List.map_append, List.map_singleton, writtenFields_append, writtenFields_append]
    by_cases own : w.node = id
    · rw [if_pos own, if_pos (renamedNode.mpr own)]
      refine (writtenFields_ascending ascending writes id).forall₂_put
        (P := fun name v v' => ValueRenamed ρ (IsWritten writes id name) v v')
        (Q := fun name v v' => ValueRenamed ρ (IsWritten (writes ++ [w]) id name) v v')
        ?_ ?_ before
      · intro name other v v' renamed
        refine valueRenamed_congr ?_ renamed
        rw [isWritten_append, or_iff_left fun same => other same.2.symm]
      · have reference : IsWritten (writes ++ [w]) id w.fieldName :=
          isWritten_append.mpr (.inr ⟨own, rfl⟩)
        exact ⟨fun _ => ⟨w.targetIds, rfl, rfl⟩, fun none => absurd reference none⟩
    · rw [if_neg own, if_neg fun same => own (renamedNode.mp same)]
      refine before.imp fun f f' pair => ⟨pair.1, valueRenamed_congr ?_ pair.2⟩
      rw [isWritten_append, or_iff_left fun same => own same.1]

end ContentImport.Store
