import ContentImport.Proofs.Import.StoredFields

/-!
Stores without a content model. They know every content type and every field, so a record that has a
title is taken with all of its fields, or it is a second one of its uuid and ends the run. A run that
succeeds has therefore taken every record, and where no two share a uuid each is stored to the end.
-/

set_option autoImplicit false
set_option relaxedAutoImplicit false

namespace ContentImport

open ContentImport.Store

private theorem Store.createNode_unmodelled {s : Store} (free : s.contentModel = [])
    {n : NodeRecord}
    (titled : n.title ≠ "") :
    s.createNode n = (.error (.duplicateNode n.uuid), s) ∨
      ∃ created t, s.createNode n = (.ok created, t) ∧ created.skippedFields = [] := by
  have fields : s.bundleFields n.bundle = .ok none := by rw [bundleFields, free]; rfl
  rw [createNode_eq, if_neg titled, fields]
  split
  · exact .inl rfl
  · refine .inr ⟨_, _, rfl, ?_⟩
    rw [writeFields_skipped, List.map_eq_nil_iff]
    exact List.filter_eq_nil_iff.mpr fun f _ => Bool.false_ne_true

namespace Progress

variable {p q : Progress} {entries : List (Noted (Option NodeRecord))}

private theorem mem_nodes_storeNodes (wf : p.store.WellFormed) {e : EntityId × StoredNode}
    (member : e ∈ p.store.repository.nodes)
    (other : ∀ n ∈ entries.filterMap (·.value), n.uuid ≠ e.2.uuid) :
    e ∈ (p.storeNodes entries).2.store.repository.nodes := by
  let scope : Scope := ⟨fun _ => true, fun uuid => uuid ≠ e.2.uuid⟩
  have steps : Edits scope p.store (p.storeNodes entries).2.store :=
    storeNodes_edits p wf entries fun n listed _ => decide_eq_true (other n listed)
  have outside : e ∈ p.store.repository.nodesOutside scope :=
    List.mem_filter.mpr ⟨member, by simp [scope]⟩
  rw [← (wf.outside_edits steps).nodes] at outside
  exact (List.mem_filter.mp outside).1

theorem storeNodes_unmodelled (wf : p.store.WellFormed) (free : p.store.contentModel = [])
    (titled : ∀ n ∈ entries.filterMap (·.value), n.title ≠ "")
    (distinct : ((entries.filterMap (·.value)).map (·.uuid)).Nodup)
    (stored : p.storeNodes entries = (none, q)) :
    ∀ n ∈ entries.filterMap (·.value), ∃ created node,
      (n, created) ∈ p.store.accepted (entries.filterMap (·.value)) ∧
        created.skippedFields = [] ∧ (created.id, node) ∈ q.store.repository.nodes ∧
        node.uuid = n.uuid := by
  induction entries generalizing p with
  | nil => exact fun n listed => nomatch listed
  | cons entry entries ih =>
    cases present : entry.value with
    | none =>
      rw [storeNodes_cons_none p present] at stored
      rw [List.filterMap_cons_none present] at titled distinct ⊢
      exact @ih (p.noting entry) wf free titled distinct stored
    | some n =>
      rw [List.filterMap_cons_some present] at titled distinct ⊢
      obtain ⟨first, others⟩ := List.forall_mem_cons.mp titled
      obtain ⟨single, rest⟩ := List.nodup_cons.mp distinct
      rcases Store.createNode_unmodelled free first with duplicate | ⟨created, t, taken, whole⟩
      · have refused : (p.noting entry).store.createNode n =
            (.error (.duplicateNode n.uuid), p.store) := duplicate
        rw [storeNodes_cons_some p present, storeNode, refused] at stored
        cases stored
      obtain ⟨next, store, goes⟩ := storeNodes_behind present stored
      have steps := wf.createNode_everything n
      rw [taken] at steps store
      rw [← store] at steps
      have later := ih (wf.edits steps) ((wf.grows steps).contentModel.trans free) others rest goes
      rw [Store.accepted, taken]
      rw [store] at later
      refine List.forall_mem_cons.mpr ⟨?_, fun m listed => ?_⟩
      · obtain ⟨-, -, values, nodes⟩ := wf.createNode_ok taken
        have put : (created.id, (⟨n.uuid, n.title, n.bundle, values⟩ : StoredNode)) ∈
            next.store.repository.nodes := by
          rw [store, nodes]
          exact List.mem_append_right _ List.mem_cons_self
        have other : ∀ m ∈ entries.filterMap (·.value), m.uuid ≠ n.uuid :=
          fun m listed same => single (List.mem_map.mpr ⟨m, listed, same⟩)
        have kept := mem_nodes_storeNodes (wf.edits steps) put other
        rw [goes] at kept
        exact ⟨created, _, List.mem_cons_self, whole, kept, rfl⟩
      · obtain ⟨made, node, accepted, rest⟩ := later m listed
        exact ⟨made, node, List.mem_cons_of_mem _ accepted, rest⟩

end Progress

end ContentImport
