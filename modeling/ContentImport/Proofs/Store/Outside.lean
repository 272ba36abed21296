import ContentImport.Proofs.Store.Operation
import ContentImport.Proofs.Store.Reference

/-!
What lies outside a scope: tags of other vocabularies, nodes of other uuids, and the paths of those
nodes. Edits within the scope leave it alone. Replacing a vocabulary or a node takes it out of what
is still to be replaced, and what lies outside then grows by what is written in its place.
-/

set_option autoImplicit false
set_option relaxedAutoImplicit false

namespace ContentImport.Store

namespace Repository

def tagsOutside (r : Repository) (scope : Scope) : Table EntityId StoredTag :=
  r.tags.filter fun e => !scope.vocabularies e.2.vocabularyId

def nodesOutside (r : Repository) (scope : Scope) : Table EntityId StoredNode :=
  r.nodes.filter fun e => !scope.uuids e.2.uuid

def pathsOutside (r : Repository) (scope : Scope) : Table EntityId PathAlias :=
  r.paths.filter fun e => nodeOfPath e.2.source ∈ (r.nodesOutside scope).map (·.1)

/-- Two repositories in which the same lies outside a scope. -/
structure SameOutside (scope : Scope) (r r' : Repository) : Prop where
  tags : r'.tagsOutside scope = r.tagsOutside scope
  nodes : r'.nodesOutside scope = r.nodesOutside scope
  paths : r'.pathsOutside scope = r.pathsOutside scope

end Repository

theorem Repository.SameOutside.trans {scope : Scope} {r r' r'' : Repository}
    (first : r.SameOutside scope r') (second : r'.SameOutside scope r'') :
    r.SameOutside scope r'' :=
  ⟨second.tags.trans first.tags, second.nodes.trans first.nodes, second.paths.trans first.paths⟩

variable {scope : Scope} {s t : Store}

private theorem filter_adjust_of_dropped {ν : Type} {table : Table EntityId ν} {key : EntityId}
    (change : ν → ν) {keep : EntityId × ν → Bool}
    (dropped : ∀ e ∈ table, e.1 = key → keep e = false ∧ keep (e.1, change e.2) = false) :
    (Table.adjust table key change).filter keep = table.filter keep := by
  induction table with
  | nil => rfl
  | cons e rest ih =>
    obtain ⟨first, others⟩ := List.forall_mem_cons.mp dropped
    have later := ih others
    unfold Table.adjust at later ⊢
    rw [List.map_cons, List.filter_cons, List.filter_cons, later]
    split
    · next same =>
      obtain ⟨before, after⟩ := first same
      rw [before, after]
      rfl
    · rfl

private theorem WellFormed.outside_dropNode (wf : s.WellFormed) {uuid : String} {id : EntityId}
    {node : StoredNode} (within : scope.uuids uuid = true)
    (found : s.repository.nodeByUuid? uuid = some (id, node)) :
    s.repository.SameOutside scope (s.dropNode id).repository := by
  obtain ⟨stored, named⟩ := Repository.mem_of_nodeByUuid? found
  rw [wf.dropNode_eq]
  have nodes : (s.repository.nodes.filter fun e => e.1 ≠ id).filter
      (fun e => !scope.uuids e.2.uuid) =
        s.repository.nodes.filter fun e => !scope.uuids e.2.uuid := by
    rw [List.filter_filter]
    refine List.filter_congr ?_
    intro e member
    by_cases same : e.1 = id
    · have equal := wf.consistent.nodesAscending.eq_of_mem member stored same
      rw [equal, named, within]
      rfl
    · simp [same]
  refine ⟨rfl, nodes, ?_⟩
  unfold Repository.pathsOutside Repository.nodesOutside
  rw [nodes, List.filter_filter]
  refine List.filter_congr ?_
  intro e _
  by_cases leads : e.2.source = nodePath id
  · have gone : nodeOfPath e.2.source ∉
        (s.repository.nodes.filter fun e => !scope.uuids e.2.uuid).map (·.1) := by
      rw [leads, nodeOfPath_nodePath]
      intro kept
      rw [wf.consistent.nodesAscending.mem_keys_filter _ stored, named, within] at kept
      cases kept
    simp only [gone, decide_false, Bool.false_and]
  · simp only [leads, ne_eq, not_false_eq_true, decide_true, Bool.and_true]

private theorem WellFormed.outside_putNode (wf : s.WellFormed) {n : NodeRecord}
    (within : scope.uuids n.uuid = true) (values : Table String Json.Value) :
    s.repository.SameOutside scope (s.putNode n values).repository := by
  rw [wf.putNode_eq]
  have nodes : (s.repository.nodes ++
      [(s.lastId + 1, (⟨n.uuid, n.title, n.bundle, values⟩ : StoredNode))]).filter
        (fun e => !scope.uuids e.2.uuid) =
      s.repository.nodes.filter fun e => !scope.uuids e.2.uuid := by
    rw [List.filter_append, List.filter_cons_of_neg (by simp [within]), List.filter_nil,
      List.append_nil]
  refine ⟨rfl, nodes, ?_⟩
  unfold Repository.pathsOutside Repository.nodesOutside
  rw [nodes, List.filter_append]
  -- The new alias is of a node whose number was not given out before, so of none outside.
  have aliases : (s.aliasPaths n).filter (fun e => nodeOfPath e.2.source ∈
      (s.repository.nodes.filter fun e => !scope.uuids e.2.uuid).map (·.1)) = [] := by
    refine List.filter_eq_nil_iff.mpr ?_
    intro e member kept
    rw [(mem_aliasPaths member).2, nodeOfPath_nodePath] at kept
    obtain ⟨owner, stored, same⟩ := List.mem_map.mp (of_decide_eq_true kept)
    have given := wf.given.nodes owner (List.mem_filter.mp stored).1
    rw [same] at given
    exact Nat.not_succ_le_self _ given
  rw [aliases, List.append_nil]

private theorem WellFormed.outside_edit (wf : s.WellFormed) (step : Edit scope s t) :
    s.repository.SameOutside scope t.repository := by
  cases step with
  | putVocabulary name absent => exact ⟨rfl, rfl, rfl⟩
  | @clearVocabulary id within overwrites =>
    rw [wf.clearVocabulary_eq]
    refine ⟨?_, rfl, rfl⟩
    unfold Repository.tagsOutside
    rw [List.filter_filter]
    refine List.filter_congr ?_
    intro e _
    by_cases same : e.2.vocabularyId = id
    · simp [same, within]
    · simp [same]
  | putTag within named housed =>
    rw [wf.putTag_eq]
    refine ⟨?_, rfl, rfl⟩
    unfold Repository.tagsOutside
    rw [List.filter_append, List.filter_cons_of_neg (by simp [within]), List.filter_nil,
      List.append_nil]
  | @setParents vocabularyId name id within found names =>
    obtain ⟨tag, held, vocabulary, -⟩ := Repository.mem_of_tagId? found
    have dropped : ∀ e ∈ s.repository.tags, e.1 = id →
        (!scope.vocabularies e.2.vocabularyId) = false := by
      intro e member same
      rw [wf.consistent.tagsAscending.eq_of_mem member held same, vocabulary, within]
      rfl
    have tags : (Table.adjust s.repository.tags id fun tag =>
        { tag with parents := names.filterMap (s.repository.tagId? vocabularyId) }).filter
          (fun e => !scope.vocabularies e.2.vocabularyId) =
        s.repository.tags.filter fun e => !scope.vocabularies e.2.vocabularyId :=
      filter_adjust_of_dropped _ fun e member same =>
        ⟨dropped e member same, dropped e member same⟩
    exact ⟨tags, rfl, rfl⟩
  | putFile absent => exact ⟨rfl, rfl, rfl⟩
  | dropNode within overwrites found => exact wf.outside_dropNode within found
  | putNode within titled absent ascending => exact wf.outside_putNode within _

theorem WellFormed.outside_edits (wf : s.WellFormed) (steps : Edits scope s t) :
    s.repository.SameOutside scope t.repository := by
  induction steps with
  | refl => exact ⟨rfl, rfl, rfl⟩
  | tail before step ih => exact ih.trans ((wf.edits before).outside_edit step)

theorem outside_insertReferences {writes : List ReferenceWrite}
    (within : ∀ e ∈ s.repository.nodesOutside scope, ∀ w ∈ writes, w.node ≠ e.1) :
    s.repository.SameOutside scope (s.insertReferences writes).repository := by
  rw [s.insertReferences_eq]
  have nodes : (s.repository.nodes.map fun e =>
      (e.1, { e.2 with fields := writtenFields writes e.1 e.2.fields })).filter
        (fun e => !scope.uuids e.2.uuid) =
      s.repository.nodes.filter fun e => !scope.uuids e.2.uuid := by
    rw [List.filter_map]
    refine (List.map_congr_left ?_).trans (List.map_id _)
    intro e member
    rw [writtenFields_of_forall_ne (within e member)]
    rfl
  refine ⟨rfl, nodes, ?_⟩
  unfold Repository.pathsOutside Repository.nodesOutside
  rw [nodes]

/-! ## Replacing -/

/-- The scope in which nothing is left to be replaced. -/
def Scope.nothing : Scope :=
  ⟨fun _ => false, fun _ => false⟩

theorem Repository.tagsOutside_nothing (r : Repository) : r.tagsOutside .nothing = r.tags :=
  List.filter_eq_self.mpr fun _ _ => rfl

theorem Repository.nodesOutside_nothing (r : Repository) : r.nodesOutside .nothing = r.nodes :=
  List.filter_eq_self.mpr fun _ _ => rfl

theorem Repository.Consistent.pathsOutside_nothing {r : Repository} (consistent : r.Consistent) :
    r.pathsOutside .nothing = r.paths := by
  refine List.filter_eq_self.mpr ?_
  intro e member
  obtain ⟨owner, stored, source⟩ := consistent.pathsOwned e member
  rw [source, nodeOfPath_nodePath, r.nodesOutside_nothing]
  exact decide_eq_true (List.mem_map_of_mem stored)

def Scope.withoutVocabulary (scope : Scope) (id : String) : Scope :=
  { scope with vocabularies := fun other => scope.vocabularies other && other ≠ id }

def Scope.withoutUuid (scope : Scope) (uuid : String) : Scope :=
  { scope with uuids := fun other => scope.uuids other && other ≠ uuid }

theorem WellFormed.createVocabulary_tags (wf : s.WellFormed) (overwrites : s.overwrite = true)
    (id name : String) :
    (s.createVocabulary id name).repository.tags =
      s.repository.tags.filter fun e => e.2.vocabularyId ≠ id := by
  unfold createVocabulary
  split
  · exact Repository.foldl_erase_tagsOf wf.consistent.tagsAscending id
  · next missing =>
    refine (List.filter_eq_self.mpr ?_).symm
    intro e member
    have housed := wf.consistent.tagsHoused e member
    refine decide_eq_true ?_
    rintro rfl
    exact missing housed

theorem WellFormed.tagsOutside_createVocabulary (wf : s.WellFormed)
    (overwrites : s.overwrite = true) (id name : String) :
    (s.createVocabulary id name).repository.tagsOutside (scope.withoutVocabulary id) =
      (s.repository.tagsOutside scope).filter fun e => e.2.vocabularyId ≠ id := by
  unfold Repository.tagsOutside
  rw [wf.createVocabulary_tags overwrites, List.filter_filter, List.filter_filter]
  refine List.filter_congr ?_
  intro e _
  by_cases same : e.2.vocabularyId = id <;> simp [Scope.withoutVocabulary, same]

private theorem WellFormed.discard_nodes (wf : s.WellFormed) (uuid : String) :
    (s.discard uuid).repository.nodes =
      s.repository.nodes.filter fun e => e.2.uuid ≠ uuid := by
  unfold discard
  split
  · next absent =>
    refine (List.filter_eq_self.mpr ?_).symm
    exact fun e member => decide_eq_true (Repository.nodeByUuid?_eq_none_iff.mp absent e member)
  · next id node found =>
    obtain ⟨stored, named⟩ := Repository.mem_of_nodeByUuid? found
    rw [wf.dropNode_eq]
    refine List.filter_congr ?_
    intro e member
    refine decide_eq_decide.mpr (not_congr ⟨fun same => ?_, fun same => ?_⟩)
    · rw [wf.consistent.nodesAscending.eq_of_mem member stored same]
      exact named
    · rw [wf.consistent.eq_of_uuid member stored (same.trans named.symm)]

private theorem WellFormed.discard_paths (wf : s.WellFormed) (uuid : String) :
    (s.discard uuid).repository.paths = s.repository.paths.filter fun e =>
      nodeOfPath e.2.source ∈ (s.discard uuid).repository.nodes.map (·.1) := by
  unfold discard
  split
  · refine (List.filter_eq_self.mpr ?_).symm
    intro e member
    obtain ⟨owner, stored, source⟩ := wf.consistent.pathsOwned e member
    rw [source, nodeOfPath_nodePath]
    exact decide_eq_true (List.mem_map_of_mem stored)
  · next id node found =>
    have nodes : (s.dropNode id).repository.nodes =
        s.repository.nodes.filter fun e => e.1 ≠ id := by
      rw [wf.dropNode_eq]
    have paths : (s.dropNode id).repository.paths =
        s.repository.paths.filter fun e => e.2.source ≠ nodePath id := by
      rw [wf.dropNode_eq]
    simp only [nodes, paths]
    refine List.filter_congr ?_
    intro e member
    obtain ⟨owner, stored, source⟩ := wf.consistent.pathsOwned e member
    have left := wf.consistent.nodesAscending.mem_keys_filter (fun e => decide (e.1 ≠ id)) stored
    refine decide_eq_decide.mpr ?_
    rw [source, nodeOfPath_nodePath, left, ne_eq, nodePath_inj]
    simp

theorem WellFormed.nodesOutside_discard (wf : s.WellFormed) (uuid : String) :
    (s.discard uuid).repository.nodesOutside (scope.withoutUuid uuid) =
      (s.repository.nodesOutside scope).filter fun e => e.2.uuid ≠ uuid := by
  unfold Repository.nodesOutside
  rw [wf.discard_nodes, List.filter_filter, List.filter_filter]
  refine List.filter_congr ?_
  intro e _
  by_cases same : e.2.uuid = uuid <;> simp [Scope.withoutUuid, same]

theorem WellFormed.pathsOutside_discard (wf : s.WellFormed) (uuid : String) :
    (s.discard uuid).repository.pathsOutside (scope.withoutUuid uuid) =
      (s.repository.pathsOutside scope).filter fun e => nodeOfPath e.2.source ∈
        ((s.repository.nodesOutside scope).filter fun e => e.2.uuid ≠ uuid).map (·.1) := by
  unfold Repository.pathsOutside
  rw [wf.nodesOutside_discard, wf.discard_paths, List.filter_filter, List.filter_filter]
  refine List.filter_congr ?_
  intro e _
  have fewer : nodeOfPath e.2.source ∈
        ((s.repository.nodesOutside scope).filter fun e => e.2.uuid ≠ uuid).map (·.1) →
      nodeOfPath e.2.source ∈ (s.discard uuid).repository.nodes.map (·.1) ∧
        nodeOfPath e.2.source ∈ (s.repository.nodesOutside scope).map (·.1) := by
    intro listed
    obtain ⟨owner, kept, same⟩ := List.mem_map.mp listed
    obtain ⟨outside, other⟩ := List.mem_filter.mp kept
    rw [wf.discard_nodes, ← same]
    refine ⟨List.mem_map_of_mem (List.mem_filter.mpr ⟨?_, other⟩), List.mem_map_of_mem outside⟩
    exact (List.mem_filter.mp outside).1
  by_cases listed : nodeOfPath e.2.source ∈
      ((s.repository.nodesOutside scope).filter fun e => e.2.uuid ≠ uuid).map (·.1)
  · simp only [listed, fewer listed, decide_true, Bool.and_true]
  · simp only [listed, decide_false, Bool.false_and]

end ContentImport.Store
