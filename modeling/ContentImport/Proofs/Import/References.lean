import ContentImport.Proofs.Import.Phases
import ContentImport.Proofs.Store.Reference
import Mathlib.Order.Bounds.Defs

/-!
References between nodes. Nodes are stored first and their references written afterwards, so a
reference finds the node of its uuid wherever that stands among the records. The nodes that a run
accepted are followed through the run: the numbers given out for them ascend, and each node of the
run that is stored has the number and the uuid of one of them.
-/

set_option autoImplicit false
set_option relaxedAutoImplicit false

namespace ContentImport

open ContentImport.Store

/-- The nodes that a store accepts from records, each with what was created for it. -/
def Store.accepted (s : Store) : List NodeRecord → List (NodeRecord × CreatedNode)
  | [] => []
  | n :: rest =>
    match s.createNode n with
    | (.ok created, s) => (n, created) :: s.accepted rest
    | (.error _, s) => s.accepted rest

theorem Store.mem_of_mem_accepted {s : Store} {records : List NodeRecord}
    {a : NodeRecord × CreatedNode} (member : a ∈ s.accepted records) : a.1 ∈ records := by
  induction records generalizing s with
  | nil => cases member
  | cons n records ih =>
    unfold Store.accepted at member
    split at member
    · rcases List.mem_cons.mp member with rfl | later
      · exact List.mem_cons_self
      · exact List.mem_cons_of_mem _ (ih later)
    · exact List.mem_cons_of_mem _ (ih member)

theorem Store.WellFormed.accepted_ascending {s : Store} (wf : s.WellFormed)
    (records : List NodeRecord) :
    (∀ a ∈ s.accepted records, s.lastId < a.2.id) ∧
      (s.accepted records).Pairwise fun a b => a.2.id < b.2.id := by
  induction records generalizing s with
  | nil => exact ⟨nofun, .nil⟩
  | cons n records ih =>
    have steps := wf.createNode_everything n
    have grows := wf.grows steps
    rw [Store.accepted]
    cases outcome : s.createNode n with
    | mk result t =>
      rw [outcome] at steps grows
      obtain ⟨newer, ascending⟩ := ih (wf.edits steps)
      have later : ∀ a ∈ t.accepted records, s.lastId < a.2.id :=
        fun a member => Nat.lt_of_le_of_lt grows.lastId (newer a member)
      cases result with
      | error e => exact ⟨later, ascending⟩
      | ok created =>
        obtain ⟨behind, given, -⟩ := wf.createNode_ok outcome
        have first : ∀ a ∈ t.accepted records, created.id < a.2.id :=
          fun a member => Nat.lt_of_le_of_lt given (newer a member)
        exact ⟨List.forall_mem_cons.mpr ⟨behind, later⟩, List.pairwise_cons.mpr ⟨first, ascending⟩⟩

private theorem splitDeferred_eq {n : NodeRecord} {created : CreatedNode}
    {before after : List FieldRecord} {f : FieldRecord} {targets : List FieldItem}
    (fields : n.fields = before ++ f :: after) (deferred : f.deferredTargets? = some targets)
    (kept : f.fieldName ∉ created.skippedFields) :
    ∃ kind, splitDeferred n created =
      splitDeferred { n with fields := before } created ++
        ⟨created.id, f.fieldName, kind, targets⟩ ::
          splitDeferred { n with fields := after } created := by
  obtain ⟨kind, references⟩ := references_of_deferred deferred
  refine ⟨kind, ?_⟩
  simp [splitDeferred, fields, kept, deferred, references]

theorem flatMap_splitDeferred_eq {done : List (NodeRecord × CreatedNode)}
    (ascending : done.Pairwise fun a b => a.2.id < b.2.id) {n : NodeRecord}
    {created : CreatedNode} (member : (n, created) ∈ done) {before after : List FieldRecord}
    {f : FieldRecord} {targets : List FieldItem} (fields : n.fields = before ++ f :: after)
    (deferred : f.deferredTargets? = some targets) (kept : f.fieldName ∉ created.skippedFields) :
    ∃ earlier kind others,
      done.flatMap (fun a => splitDeferred a.1 a.2) =
          earlier ++ ⟨created.id, f.fieldName, kind, targets⟩ :: others ∧
        ((∀ later ∈ after, later.fieldName = f.fieldName → later.deferredTargets? = none) →
          ∀ d ∈ others, d.owningNode = created.id → d.fieldName ≠ f.fieldName) := by
  obtain ⟨sooner, later, parts⟩ := List.append_of_mem member
  obtain ⟨kind, split⟩ := splitDeferred_eq fields deferred kept
  refine ⟨sooner.flatMap (fun a => splitDeferred a.1 a.2) ++
      splitDeferred { n with fields := before } created, kind,
    splitDeferred { n with fields := after } created ++
      later.flatMap (fun a => splitDeferred a.1 a.2), ?_, ?_⟩
  · rw [parts, List.flatMap_append, List.flatMap_cons, split]
    simp
  · intro last d waiting owned same
    rcases List.mem_append.mp waiting with here | elsewhere
    · obtain ⟨-, g, behind, named, waits⟩ := mem_splitDeferred here
      rw [last g behind (named.trans same)] at waits
      cases waits
    · obtain ⟨a, held, inside⟩ := List.mem_flatMap.mp elsewhere
      rw [parts] at ascending
      have ordered := (List.pairwise_append.mp ascending).2.1
      have less := (List.pairwise_cons.mp ordered).1 a held
      rw [← (mem_splitDeferred inside).1, owned] at less
      exact Nat.lt_irrefl _ less

theorem Progress.get?_writtenFields_resolved {p : Progress} {d : DeferredReference}
    {earlier others : List DeferredReference} (split : p.pending = earlier ++ d :: others)
    (last : ∀ later ∈ others, later.owningNode = d.owningNode → later.fieldName ≠ d.fieldName)
    (fields : Table String Json.Value) :
    Table.get? (writtenFields (p.pending.map p.store.resolveReference) d.owningNode fields)
      d.fieldName = some (referenceValue (d.targets.map p.store.resolveTarget?)) := by
  rw [split, List.map_append, List.map_cons]
  refine get?_writtenFields _ (p.store.resolveReference d) ?_ fields
  intro w written
  obtain ⟨later, waiting, rfl⟩ := List.mem_map.mp written
  exact last later waiting

/-- What an entry of a reference field says of its target: the number of the node that the run
stored under the uuid, the lowest number of a tag of the name, and nothing where there is none. -/
def Denotes (accepted : List (NodeRecord × CreatedNode)) (r : Repository) :
    FieldItem → Option EntityId → Prop
  | .node uuid, entry => ∀ id, entry = some id ↔
      ∃ a ∈ accepted, a.1.uuid = uuid ∧ a.2.id = id ∧ Table.holds r.nodes id = true
  | .tag ref, entry => ∀ id, entry = some id ↔
      IsLeast { id | ∃ tag, (id, tag) ∈ r.tags ∧ tag.vocabularyId = ref.vocabularyId ∧
        tag.name = ref.name } id
  | .file _, entry => entry = none
  | .literal _, entry => entry = none

/-- A run that accepted nodes: which of its fields wait, and where its nodes come from. -/
structure Accepting (mark : EntityId) (done : List (NodeRecord × CreatedNode)) (p : Progress) :
    Prop where
  wellFormed : p.store.WellFormed
  journal : Journal mark p.store
  pending : p.pending = done.flatMap fun a => splitDeferred a.1 a.2
  given : ∀ a ∈ done, a.2.id ≤ p.store.lastId
  ascending : done.Pairwise fun a b => a.2.id < b.2.id
  newer : ∀ a ∈ done, mark < a.2.id
  origin : ∀ e ∈ p.store.repository.nodes, mark < e.1 →
    ∃ a ∈ done, a.2.id = e.1 ∧ a.1.uuid = e.2.uuid

namespace Accepting

variable {mark : EntityId} {done : List (NodeRecord × CreatedNode)} {p q : Progress}

theorem start {s : Store} (wf : s.WellFormed) (journal : Journal mark s)
    (older : ∀ e ∈ s.repository.nodes, e.1 ≤ mark) (warnings : Warnings) :
    Accepting mark [] ⟨s, [], warnings⟩ := by
  refine ⟨wf, journal, rfl, by simp, .nil, by simp, ?_⟩
  intro e member newer
  exact absurd (older e member) (Nat.not_le.mpr newer)

private theorem note (accepting : Accepting mark done p) (entry : Noted (Option NodeRecord)) :
    Accepting mark done (p.noting entry) :=
  { accepting with }

private theorem refuse (accepting : Accepting mark done p) {n : NodeRecord} {e : StoreError}
    {t : Store} (refused : p.store.createNode n = (.error e, t)) (warnings : Warnings) :
    Accepting mark done ⟨t, p.pending, warnings⟩ := by
  have steps : Edits .everything p.store t := by
    have created := accepting.wellFormed.createNode_everything n
    rwa [refused] at created
  have grows := accepting.wellFormed.grows steps
  refine ⟨accepting.wellFormed.edits steps, accepting.journal.edits accepting.wellFormed steps,
    accepting.pending, ?_, accepting.ascending, accepting.newer, ?_⟩
  · exact fun a member => Nat.le_trans (accepting.given a member) grows.lastId
  · intro e member
    rcases createNode_error refused with rfl | rfl
    · exact accepting.origin e member
    · exact accepting.origin e (mem_discard_nodes member)

private theorem accept (accepting : Accepting mark done p) {n : NodeRecord} {created : CreatedNode}
    {t : Store} (accepted : p.store.createNode n = (.ok created, t)) (warnings : Warnings) :
    Accepting mark (done ++ [(n, created)])
      ⟨t, p.pending ++ splitDeferred n created, warnings⟩ := by
  have steps : Edits .everything p.store t := by
    have created := accepting.wellFormed.createNode_everything n
    rwa [accepted] at created
  have grows := accepting.wellFormed.grows steps
  obtain ⟨behind, given, values, nodes⟩ := accepting.wellFormed.createNode_ok accepted
  refine ⟨accepting.wellFormed.edits steps, accepting.journal.edits accepting.wellFormed steps,
    ?_, ?_, ?_, ?_, ?_⟩
  · simp [accepting.pending]
  · intro a member
    rcases List.mem_append.mp member with old | new
    · exact Nat.le_trans (accepting.given a old) grows.lastId
    · rw [List.mem_singleton.mp new]
      exact given
  · refine List.pairwise_append.mpr ⟨accepting.ascending, List.pairwise_singleton _ _, ?_⟩
    intro a old b new
    rw [List.mem_singleton.mp new]
    exact Nat.lt_of_le_of_lt (accepting.given a old) behind
  · intro a member
    rcases List.mem_append.mp member with old | new
    · exact accepting.newer a old
    · rw [List.mem_singleton.mp new]
      exact Nat.lt_of_le_of_lt accepting.journal.marked behind
  · intro e member later
    rw [nodes] at member
    rcases List.mem_append.mp member with old | new
    · obtain ⟨a, held, same⟩ := accepting.origin e (mem_discard_nodes old) later
      exact ⟨a, List.mem_append_left _ held, same⟩
    · rw [List.mem_singleton.mp new]
      exact ⟨(n, created), List.mem_append_right _ List.mem_cons_self, rfl, rfl⟩

theorem storeNodes (accepting : Accepting mark done p) {entries : List (Noted (Option NodeRecord))}
    (stored : p.storeNodes entries = (none, q)) :
    Accepting mark (done ++ p.store.accepted (entries.filterMap (·.value))) q := by
  induction entries generalizing done p with
  | nil =>
    obtain rfl := (Prod.mk.inj stored).2
    rwa [List.filterMap_nil, Store.accepted, List.append_nil]
  | cons entry entries ih =>
    cases present : entry.value with
    | none =>
      rw [Progress.storeNodes_cons_none p present] at stored
      rw [List.filterMap_cons_none present]
      have next := ih (accepting.note entry) stored
      exact next
    | some n =>
      rw [Progress.storeNodes_cons_some p present] at stored
      rw [List.filterMap_cons_some present]
      unfold Progress.storeNode at stored
      cases outcome : p.store.createNode n with
      | mk result t =>
        have same : (p.noting entry).store.createNode n = (result, t) := outcome
        rw [same] at stored
        cases result with
        | ok created =>
          have next := ih (accepting.accept outcome _) stored
          simpa [Store.accepted, outcome] using next
        | error e =>
          simp only at stored
          split at stored
          · cases stored
          · next nonfatal =>
            split at nonfatal
            · cases nonfatal
            · obtain ⟨-, rfl⟩ := Prod.mk.inj nonfatal
              have next := ih (accepting.refuse outcome _) stored
              simpa [Store.accepted, outcome] using next

theorem eq_of_id (accepting : Accepting mark done p) {a b : NodeRecord × CreatedNode}
    (first : a ∈ done) (second : b ∈ done) (same : a.2.id = b.2.id) : a = b := by
  have distinct : (done.map (·.2.id)).Nodup :=
    List.pairwise_map.mpr (accepting.ascending.imp fun less => Nat.ne_of_lt less)
  exact List.inj_on_of_nodup_map distinct first second same

/-- The node that the run created under a uuid is the accepted one that is still stored. -/
theorem createdNodeId?_eq_some_iff (accepting : Accepting mark done p) {uuid : String}
    {id : EntityId} :
    p.store.createdNodeId? uuid = some id ↔
      ∃ a ∈ done, a.1.uuid = uuid ∧ a.2.id = id ∧
        Table.holds p.store.repository.nodes id = true := by
  rw [accepting.journal.createdNodeId?_eq_some_iff accepting.wellFormed]
  constructor
  · rintro ⟨newer, node, stored, rfl⟩
    obtain ⟨a, member, same, uuids⟩ := accepting.origin _ stored newer
    exact ⟨a, member, uuids, same, Table.holds_iff.mpr ⟨node, stored⟩⟩
  · rintro ⟨a, member, rfl, rfl, held⟩
    obtain ⟨node, stored⟩ := Table.holds_iff.mp held
    have newer := accepting.newer a member
    obtain ⟨b, other, same, uuids⟩ := accepting.origin _ stored newer
    -- The stored node comes from some accepted one; numbers ascend, so it is this one.
    obtain rfl := accepting.eq_of_id other member same
    exact ⟨newer, node, stored, uuids.symm⟩

private theorem holds_resolve (p : Progress) (id : EntityId) :
    Table.holds p.resolve.2.store.repository.nodes id =
      Table.holds p.store.repository.nodes id := by
  have nodes := p.store.insertReferences_nodes (p.pending.map p.store.resolveReference)
  rw [Bool.eq_iff_iff, Table.holds_iff, Table.holds_iff, Progress.resolve, nodes]
  simp

private theorem denotes_resolveTarget? (accepting : Accepting mark done p) (item : FieldItem) :
    Denotes done p.resolve.2.store.repository item (p.store.resolveTarget? item) := by
  have tags : p.resolve.2.store.repository.tags = p.store.repository.tags :=
    p.store.insertReferences_tags _
  cases item with
  | node uuid =>
    intro id
    simp only [holds_resolve]
    exact accepting.createdNodeId?_eq_some_iff
  | tag ref =>
    intro id
    rw [tags]
    exact Repository.tagId?_eq_some_iff accepting.wellFormed.consistent.tagsAscending
  | file uri => rfl
  | literal value => rfl

theorem pending_eq (accepting : Accepting mark done p) {n : NodeRecord}
    {created : CreatedNode} (member : (n, created) ∈ done) {before after : List FieldRecord}
    {f : FieldRecord} {targets : List FieldItem} (fields : n.fields = before ++ f :: after)
    (deferred : f.deferredTargets? = some targets) (kept : f.fieldName ∉ created.skippedFields)
    (last : ∀ later ∈ after, later.fieldName = f.fieldName → later.deferredTargets? = none) :
    ∃ earlier kind others,
      p.pending = earlier ++ ⟨created.id, f.fieldName, kind, targets⟩ :: others ∧
        ∀ d ∈ others, d.owningNode = created.id → d.fieldName ≠ f.fieldName := by
  obtain ⟨earlier, kind, others, parts, behind⟩ :=
    flatMap_splitDeferred_eq accepting.ascending member fields deferred kept
  exact ⟨earlier, kind, others, accepting.pending.trans parts, behind last⟩

end Accepting

theorem ImportSource.accepting_unresolved {s : Store} {settings : ImportSettings}
    {source : ImportSource} (wf : s.WellFormed) (settled : s.ledger = .empty)
    (passed : (source.unresolved settings s).1 = none) :
    Accepting s.lastId ((source.tagged settings s).store.accepted (source.recordsFor settings))
      (source.unresolved settings s).2 := by
  have tagged := source.tagged_edits settings s
  have older : ∀ e ∈ (source.tagged settings s).store.repository.nodes, e.1 ≤ s.lastId := by
    rw [tagged_nodes wf]
    exact wf.given.nodes
  have start := Accepting.start (wf.edits tagged) ((wf.journal settled).edits wf tagged) older
    (Warnings.empty.warnAll source.notices)
  have stored : (source.tagged settings s).storeNodes (source.entriesFor settings) =
      (none, (source.unresolved settings s).2) := Prod.ext passed rfl
  have accepting := start.storeNodes stored
  rwa [List.nil_append] at accepting

/-- Every reference of a node that was accepted and is still stored is complete once the fields that
wait are written: each target has its entry, wherever its node stands among the records. -/
theorem Progress.resolve_complete {s : Store} {p : Progress} {records : List NodeRecord}
    (reachable : Reachable s) (settled : s.ledger = .empty)
    (stored : (Progress.start s).storeNodes (records.map fun n => pure (some n)) = (none, p))
    {n : NodeRecord} {created : CreatedNode} (accepted : (n, created) ∈ s.accepted records)
    {node : StoredNode}
    (live : Table.get? p.resolve.2.store.repository.nodes created.id = some node)
    {before after : List FieldRecord} {f : FieldRecord} {targets : List FieldItem}
    (fields : n.fields = before ++ f :: after) (deferred : f.deferredTargets? = some targets)
    (kept : f.fieldName ∉ created.skippedFields)
    (last : ∀ later ∈ after, later.fieldName = f.fieldName → later.deferredTargets? = none) :
    ∃ entries, Table.get? node.fields f.fieldName =
        some (.list (entries.map (Json.Value.ofOption .nat))) ∧
      List.Forall₂ (Denotes (s.accepted records) p.resolve.2.store.repository) targets entries := by
  have wf := reachable.sound.wellFormed
  have journal := wf.journal settled
  have start : Accepting s.lastId [] (Progress.start s) := by
    refine ⟨wf, journal, rfl, by simp, .nil, by simp, ?_⟩
    intro e member newer
    exact absurd (wf.given.nodes e member) (Nat.not_le.mpr newer)
  have accepting := start.storeNodes stored
  have values : (records.map fun n => (pure (some n) : Noted (Option NodeRecord))).filterMap
      (·.value) = records := by
    rw [List.filterMap_map]
    exact List.filterMap_some
  rw [List.nil_append, values] at accepting
  refine ⟨targets.map p.store.resolveTarget?, ?_, ?_⟩
  · have nodes := p.store.insertReferences_nodes (p.pending.map p.store.resolveReference)
    have place := Table.mem_of_get? live
    rw [Progress.resolve, nodes] at place
    obtain ⟨e, -, same⟩ := List.mem_map.mp place
    obtain ⟨key, rfl⟩ := Prod.mk.inj same
    obtain ⟨earlier, kind, others, pending, behind⟩ :=
      accepting.pending_eq accepted fields deferred kept last
    rw [key]
    exact get?_writtenFields_resolved pending behind e.2.fields
  · refine List.forall₂_map_right_iff.mpr (List.forall₂_same.mpr ?_)
    exact fun item _ => accepting.denotes_resolveTarget? item

/-- A page that refers to a later page and to one that does not exist, and that later page. -/
def linkedPages : List NodeRecord :=
  [⟨"First", "page", none, "first",
      [⟨"next", .references [.node "second", .node "third"], some .node⟩]⟩,
    ⟨"Second", "page", none, "second", []⟩]

theorem Progress.resolve_complete_linkedPages :
    let s := Store.empty false []
    let p := ((Progress.start s).storeNodes (linkedPages.map fun n => pure (some n))).2
    ∃ node entries, Table.get? p.resolve.2.store.repository.nodes 1 = some node ∧
      Table.get? node.fields "next" = some (.list (entries.map (Json.Value.ofOption .nat))) ∧
      List.Forall₂ (Denotes (s.accepted linkedPages) p.resolve.2.store.repository)
        [.node "second", .node "third"] entries := by
  intro s p
  have stored : (Progress.start s).storeNodes (linkedPages.map fun n => pure (some n)) =
      (none, p) := Prod.ext rfl rfl
  have live : (Table.get? p.resolve.2.store.repository.nodes 1).isSome = true := by decide +kernel
  obtain ⟨node, live⟩ := Option.isSome_iff_exists.mp live
  have accepted : (linkedPages[0], ⟨1, []⟩) ∈ s.accepted linkedPages := List.mem_cons_self
  have fields : linkedPages[0].fields =
      [] ++ ⟨"next", .references [.node "second", .node "third"], some .node⟩ :: [] := rfl
  obtain ⟨entries, written, denotes⟩ := Progress.resolve_complete (.empty false []) rfl stored
    accepted live fields rfl List.not_mem_nil (by simp)
  exact ⟨node, entries, live, written, denotes⟩

end ContentImport
