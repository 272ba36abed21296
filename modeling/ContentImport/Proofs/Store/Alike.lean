import ContentImport.Proofs.Store.Renaming

/-!
Two stores that are alike up to a renaming of numbers. The first one is followed on its way to a
goal, the second one started at that goal: it has the vocabularies and files of the goal already,
and what it creates gets numbers behind those of the goal. Outside a scope, which holds what both are
still to replace, the tags, nodes and paths of the second are those of the first under the renaming.
-/

set_option autoImplicit false
set_option relaxedAutoImplicit false

namespace ContentImport.Store

/-- Two stores that are alike outside a scope: the first is on its way to a goal, the second started
there. -/
structure Alike (scope : Scope) (start : EntityId) (goal : Store) (ρ : EntityId → EntityId)
    (a b : Store) : Prop where
  first : a.WellFormed
  second : b.WellFormed
  firstOverwrites : a.overwrite = true
  secondOverwrites : b.overwrite = true
  contentModel : b.contentModel = a.contentModel
  vocabularies : b.repository.vocabularies = goal.repository.vocabularies
  files : b.repository.files = goal.repository.files
  renamed : Renaming start goal.lastId a.lastId b.lastId ρ
  tags : b.repository.tagsOutside scope = (a.repository.tagsOutside scope).map (renameTag ρ)
  nodes : b.repository.nodesOutside scope = (a.repository.nodesOutside scope).map (renameNode ρ)
  paths : b.repository.pathsOutside scope = (a.repository.pathsOutside scope).map (renamePath ρ)
  /-- Nodes that were created on the way correspond to nodes that were created behind the goal. -/
  newer : ∀ e ∈ a.repository.nodesOutside scope, start < e.1 → goal.lastId < ρ e.1

namespace Alike

variable {scope : Scope} {start : EntityId} {goal a b : Store} {ρ : EntityId → EntityId}

theorem injective (alike : Alike scope start goal ρ a b) (room : a.lastId ≤ goal.lastId)
    {x y : EntityId} (givenX : x ≤ a.lastId) (givenY : y ≤ a.lastId) : ρ x = ρ y ↔ x = y := by
  refine ⟨fun same => ?_, fun same => same ▸ rfl⟩
  exact alike.renamed.injective (Nat.le_trans givenX room) (Nat.le_trans givenY room) same

/-! ## Vocabularies -/

private theorem find?_tagsOutside (r : Repository) {vocabularyId : String}
    (outside : scope.vocabularies vocabularyId = false) (name : String) :
    r.tagId? vocabularyId name = ((r.tagsOutside scope).find? fun e =>
      e.2.vocabularyId = vocabularyId && e.2.name = name).map (·.1) := by
  unfold Repository.tagsOutside Repository.tagId?
  rw [List.find?_filter]
  congr 2
  funext e
  by_cases same : e.2.vocabularyId = vocabularyId <;> simp [same, outside]

theorem tagId? (alike : Alike scope start goal ρ a b) {vocabularyId : String}
    (outside : scope.vocabularies vocabularyId = false) (name : String) :
    b.repository.tagId? vocabularyId name = (a.repository.tagId? vocabularyId name).map ρ := by
  rw [find?_tagsOutside _ outside, find?_tagsOutside _ outside, alike.tags, List.find?_map,
    Option.map_map, Option.map_map]
  rfl

/-- Two stores that differ at most in vocabularies, tags and numbers given out. -/
structure TagsOnly (s t : Store) : Prop where
  overwrite : t.overwrite = s.overwrite
  contentModel : t.contentModel = s.contentModel
  nodes : t.repository.nodes = s.repository.nodes
  files : t.repository.files = s.repository.files
  paths : t.repository.paths = s.repository.paths

private theorem TagsOnly.outside {s t : Store} (only : TagsOnly s t) {scope scope' : Scope}
    (uuids : scope'.uuids = scope.uuids) :
    t.repository.nodesOutside scope' = s.repository.nodesOutside scope ∧
      t.repository.pathsOutside scope' = s.repository.pathsOutside scope := by
  have nodes : t.repository.nodesOutside scope' = s.repository.nodesOutside scope := by
    unfold Repository.nodesOutside
    rw [only.nodes, uuids]
  refine ⟨nodes, ?_⟩
  unfold Repository.pathsOutside
  rw [only.paths, nodes]

private theorem ofTags (alike : Alike scope start goal ρ a b) {scope' : Scope} {a' b' : Store}
    {ρ' : EntityId → EntityId} (uuids : scope'.uuids = scope.uuids) (onlyA : TagsOnly a a')
    (onlyB : TagsOnly b b') (first : a'.WellFormed) (second : b'.WellFormed)
    (vocabularies : b'.repository.vocabularies = b.repository.vocabularies)
    (renamed : Renaming start goal.lastId a'.lastId b'.lastId ρ')
    (agree : ∀ id ≤ a.lastId, ρ' id = ρ id)
    (tags : b'.repository.tagsOutside scope' =
      (a'.repository.tagsOutside scope').map (renameTag ρ')) :
    Alike scope' start goal ρ' a' b' := by
  obtain ⟨nodesA, pathsA⟩ := onlyA.outside uuids
  obtain ⟨nodesB, pathsB⟩ := onlyB.outside uuids
  refine ⟨first, second, ?_, ?_, ?_, ?_, ?_, renamed, tags, ?_, ?_, ?_⟩
  · rw [onlyA.overwrite, alike.firstOverwrites]
  · rw [onlyB.overwrite, alike.secondOverwrites]
  · rw [onlyA.contentModel, onlyB.contentModel, alike.contentModel]
  · rw [vocabularies, alike.vocabularies]
  · rw [onlyB.files, alike.files]
  · rw [nodesA, nodesB, map_renameNode_congr alike.first.given agree, alike.nodes]
  · rw [pathsA, pathsB, map_renamePath_congr alike.first.consistent alike.first.given agree,
      alike.paths]
  · rw [nodesA]
    intro e member behind
    rw [agree e.1 (alike.first.given.nodes e (List.mem_filter.mp member).1)]
    exact alike.newer e member behind

private theorem createVocabulary_only (s : Store) (id name : String) :
    TagsOnly s (s.createVocabulary id name) ∧ (s.createVocabulary id name).lastId = s.lastId := by
  unfold Store.createVocabulary
  split
  · split <;> exact ⟨⟨rfl, rfl, rfl, rfl, rfl⟩, rfl⟩
  · exact ⟨⟨rfl, rfl, rfl, rfl, rfl⟩, rfl⟩

theorem createVocabulary (alike : Alike scope start goal ρ a b) {id name : String}
    (grows : Grows (a.createVocabulary id name) goal) :
    Alike (scope.withoutVocabulary id) start goal ρ (a.createVocabulary id name)
      (b.createVocabulary id name) := by
  have stepsA : Edits .everything a (a.createVocabulary id name) :=
    createVocabulary_edits a name rfl
  have stepsB : Edits .everything b (b.createVocabulary id name) :=
    createVocabulary_edits b name rfl
  obtain ⟨onlyA, lastA⟩ := createVocabulary_only a id name
  obtain ⟨onlyB, lastB⟩ := createVocabulary_only b id name
  have held : Table.holds b.repository.vocabularies id = true := by
    rw [alike.vocabularies]
    exact grows.vocabularies id (createVocabulary_holds a id name)
  have vocabularies : (b.createVocabulary id name).repository.vocabularies =
      b.repository.vocabularies := by
    rw [Store.createVocabulary, if_pos held, if_pos alike.secondOverwrites]
  have renamed : Renaming start goal.lastId (a.createVocabulary id name).lastId
      (b.createVocabulary id name).lastId ρ := by
    rw [lastA, lastB]
    exact alike.renamed
  refine alike.ofTags rfl onlyA onlyB (alike.first.edits stepsA) (alike.second.edits stepsB)
    vocabularies renamed (fun _ _ => rfl) ?_
  rw [alike.second.tagsOutside_createVocabulary alike.secondOverwrites,
    alike.first.tagsOutside_createVocabulary alike.firstOverwrites, alike.tags, List.filter_map]
  rfl

private theorem tagsOutside_putTag {s : Store} (wf : s.WellFormed) {vocabularyId : String}
    (outside : scope.vocabularies vocabularyId = false) (name : String) :
    (s.putTag vocabularyId name).repository.tagsOutside scope =
      s.repository.tagsOutside scope ++ [(s.lastId + 1, ⟨vocabularyId, name, []⟩)] := by
  rw [wf.putTag_eq]
  unfold Repository.tagsOutside
  rw [List.filter_append, List.filter_cons_of_pos (by simp [outside]), List.filter_nil]

theorem putTag (alike : Alike scope start goal ρ a b) {vocabularyId name : String}
    (outside : scope.vocabularies vocabularyId = false) (named : name ≠ "")
    (housedA : Table.holds a.repository.vocabularies vocabularyId = true)
    (housedB : Table.holds b.repository.vocabularies vocabularyId = true)
    (room : a.lastId + 1 ≤ goal.lastId) :
    Alike scope start goal (extend ρ a.lastId b.lastId 1) (a.putTag vocabularyId name)
      (b.putTag vocabularyId name) := by
  have stepA : Edit .everything a (a.putTag vocabularyId name) := .putTag rfl named housedA
  have stepB : Edit .everything b (b.putTag vocabularyId name) := .putTag rfl named housedB
  have agree : ∀ id ≤ a.lastId, extend ρ a.lastId b.lastId 1 id = ρ id :=
    fun id old => extend_of_le old _ _
  refine alike.ofTags rfl ⟨rfl, rfl, rfl, rfl, rfl⟩ ⟨rfl, rfl, rfl, rfl, rfl⟩
    (alike.first.edit stepA) (alike.second.edit stepB) rfl (alike.renamed.extend room) agree ?_
  have new : extend ρ a.lastId b.lastId 1 (a.lastId + 1) = b.lastId + 1 :=
    extend_add _ _ Nat.one_pos (Nat.le_refl _)
  rw [tagsOutside_putTag alike.first outside, tagsOutside_putTag alike.second outside,
    List.map_append, map_renameTag_congr alike.first.given agree, alike.tags, List.map_singleton,
    renameTag, new]
  rfl

private theorem tagsOutside_setParents (s : Store) (id : EntityId) (parents : List EntityId) :
    (s.setParents id parents).repository.tagsOutside scope =
      Table.adjust (s.repository.tagsOutside scope) id fun tag => { tag with parents } := by
  unfold Repository.tagsOutside Store.setParents Table.adjust
  rw [List.filter_map]
  congr 1
  refine List.filter_congr ?_
  intro e _
  rw [Function.comp_apply]
  split <;> rfl

theorem setParents (alike : Alike scope start goal ρ a b) (room : a.lastId ≤ goal.lastId)
    {vocabularyId name : String} {id : EntityId}
    (outside : scope.vocabularies vocabularyId = false)
    (found : a.repository.tagId? vocabularyId name = some id) (names : List String) :
    Alike scope start goal ρ
      (a.setParents id (names.filterMap (a.repository.tagId? vocabularyId)))
      (b.setParents (ρ id) (names.filterMap (b.repository.tagId? vocabularyId))) := by
  have foundB : b.repository.tagId? vocabularyId name = some (ρ id) := by
    rw [alike.tagId? outside, found, Option.map_some]
  have stepA : Edit .everything a
      (a.setParents id (names.filterMap (a.repository.tagId? vocabularyId))) :=
    .setParents rfl found names
  have stepB : Edit .everything b
      (b.setParents (ρ id) (names.filterMap (b.repository.tagId? vocabularyId))) :=
    .setParents rfl foundB names
  have parents : names.filterMap (b.repository.tagId? vocabularyId) =
      (names.filterMap (a.repository.tagId? vocabularyId)).map ρ := by
    rw [List.map_filterMap]
    exact List.filterMap_congr fun name _ => alike.tagId? outside name
  refine alike.ofTags rfl ⟨rfl, rfl, rfl, rfl, rfl⟩ ⟨rfl, rfl, rfl, rfl, rfl⟩
    (alike.first.edit stepA) (alike.second.edit stepB) rfl alike.renamed (fun _ _ => rfl) ?_
  obtain ⟨tag, held, -⟩ := Repository.mem_of_tagId? found
  have given := alike.first.given.tags _ held
  rw [tagsOutside_setParents, tagsOutside_setParents, alike.tags, parents, Table.adjust,
    Table.adjust, List.map_map, List.map_map]
  refine List.map_congr_left ?_
  intro e member
  have givenE := alike.first.given.tags e (List.mem_filter.mp member).1
  have same := alike.injective room givenE given
  by_cases equal : e.1 = id
  · simp [renameTag, equal]
  · simp [renameTag, equal, same]

/-! ## Nodes -/

theorem file (alike : Alike scope start goal ρ a b) {a' : Store} (filed : Filings a a') :
    Alike scope start goal ρ a' b := by
  have steps : Edits .everything a a' := filed.edits
  have grows := alike.first.grows steps
  have first := alike.first.edits steps
  obtain ⟨files, entered, last, rfl⟩ := filed.frame
  exact { alike with first, renamed := alike.renamed.advance grows.lastId }

/-- Two stores that differ at most in nodes, paths and numbers given out. -/
structure NodesOnly (s t : Store) : Prop where
  overwrite : t.overwrite = s.overwrite
  contentModel : t.contentModel = s.contentModel
  vocabularies : t.repository.vocabularies = s.repository.vocabularies
  tags : t.repository.tags = s.repository.tags
  files : t.repository.files = s.repository.files

private theorem ofNodes (alike : Alike scope start goal ρ a b) {scope' : Scope} {a' b' : Store}
    {ρ' : EntityId → EntityId} (vocabularies : scope'.vocabularies = scope.vocabularies)
    (onlyA : NodesOnly a a') (onlyB : NodesOnly b b') (first : a'.WellFormed)
    (second : b'.WellFormed) (renamed : Renaming start goal.lastId a'.lastId b'.lastId ρ')
    (agree : ∀ id ≤ a.lastId, ρ' id = ρ id)
    (nodes : b'.repository.nodesOutside scope' =
      (a'.repository.nodesOutside scope').map (renameNode ρ'))
    (paths : b'.repository.pathsOutside scope' =
      (a'.repository.pathsOutside scope').map (renamePath ρ'))
    (newer : ∀ e ∈ a'.repository.nodesOutside scope', start < e.1 → goal.lastId < ρ' e.1) :
    Alike scope' start goal ρ' a' b' := by
  have tagsA : a'.repository.tagsOutside scope' = a.repository.tagsOutside scope := by
    unfold Repository.tagsOutside
    rw [onlyA.tags, vocabularies]
  have tagsB : b'.repository.tagsOutside scope' = b.repository.tagsOutside scope := by
    unfold Repository.tagsOutside
    rw [onlyB.tags, vocabularies]
  refine ⟨first, second, ?_, ?_, ?_, ?_, ?_, renamed, ?_, nodes, paths, newer⟩
  · rw [onlyA.overwrite, alike.firstOverwrites]
  · rw [onlyB.overwrite, alike.secondOverwrites]
  · rw [onlyA.contentModel, onlyB.contentModel, alike.contentModel]
  · rw [onlyB.vocabularies, alike.vocabularies]
  · rw [onlyB.files, alike.files]
  · rw [tagsA, tagsB, map_renameTag_congr alike.first.given agree, alike.tags]

private theorem mem_renamed (alike : Alike scope start goal ρ a b)
    (room : a.lastId ≤ goal.lastId) {nodes : Table EntityId StoredNode}
    (stored : ∀ e ∈ nodes, e ∈ a.repository.nodes) {id : EntityId} (given : id ≤ a.lastId) :
    ρ id ∈ (nodes.map (renameNode ρ)).map (·.1) ↔ id ∈ nodes.map (·.1) := by
  rw [List.map_map, List.mem_map, List.mem_map]
  refine exists_congr fun e => and_congr_right fun member => ?_
  exact alike.injective room (alike.first.given.nodes e (stored e member)) given

private theorem discard_only (s : Store) (uuid : String) :
    NodesOnly s (s.discard uuid) ∧ (s.discard uuid).lastId = s.lastId := by
  unfold Store.discard
  split <;> exact ⟨⟨rfl, rfl, rfl, rfl, rfl⟩, rfl⟩

private theorem pathsOutside_discard (alike : Alike scope start goal ρ a b)
    (room : a.lastId ≤ goal.lastId) (uuid : String) :
    (b.discard uuid).repository.pathsOutside (scope.withoutUuid uuid) =
      ((a.discard uuid).repository.pathsOutside (scope.withoutUuid uuid)).map (renamePath ρ) := by
  have kept : (b.repository.nodesOutside scope).filter (fun e => e.2.uuid ≠ uuid) =
      ((a.repository.nodesOutside scope).filter fun e => e.2.uuid ≠ uuid).map (renameNode ρ) := by
    rw [alike.nodes, List.filter_map]
    rfl
  rw [alike.first.pathsOutside_discard, alike.second.pathsOutside_discard, kept, alike.paths,
    List.filter_map]
  refine congrArg (List.map _) (List.filter_congr ?_)
  intro e member
  obtain ⟨owner, stored, source⟩ :=
    alike.first.consistent.pathsOwned e (List.mem_filter.mp member).1
  have given := alike.first.given.nodes owner stored
  refine decide_eq_decide.mpr ?_
  rw [renamePath, source, nodeOfPath_nodePath, nodeOfPath_nodePath]
  refine alike.mem_renamed room ?_ given
  exact fun e member => (List.mem_filter.mp (List.mem_filter.mp member).1).1

theorem discard (alike : Alike scope start goal ρ a b) (room : a.lastId ≤ goal.lastId)
    (uuid : String) :
    Alike (scope.withoutUuid uuid) start goal ρ (a.discard uuid) (b.discard uuid) := by
  have stepsA : Edits .everything a (a.discard uuid) :=
    discard_edits a rfl (by simp [alike.firstOverwrites])
  have stepsB : Edits .everything b (b.discard uuid) :=
    discard_edits b rfl (by simp [alike.secondOverwrites])
  obtain ⟨onlyA, lastA⟩ := discard_only a uuid
  obtain ⟨onlyB, lastB⟩ := discard_only b uuid
  have renamed : Renaming start goal.lastId (a.discard uuid).lastId (b.discard uuid).lastId ρ := by
    rw [lastA, lastB]
    exact alike.renamed
  refine alike.ofNodes rfl onlyA onlyB (alike.first.edits stepsA) (alike.second.edits stepsB)
    renamed (fun _ _ => rfl) ?_ (alike.pathsOutside_discard room uuid) ?_
  · rw [alike.first.nodesOutside_discard, alike.second.nodesOutside_discard, alike.nodes,
      List.filter_map]
    rfl
  · rw [alike.first.nodesOutside_discard]
    exact fun e member => alike.newer e (List.mem_filter.mp member).1

private theorem nodesOutside_putNode {s : Store} (wf : s.WellFormed) {n : NodeRecord}
    (outside : scope.uuids n.uuid = false) (values : Table String Json.Value) :
    (s.putNode n values).repository.nodesOutside scope =
      s.repository.nodesOutside scope ++
        [(s.lastId + 1, ⟨n.uuid, n.title, n.bundle, values⟩)] := by
  rw [wf.putNode_eq]
  unfold Repository.nodesOutside
  rw [List.filter_append, List.filter_cons_of_pos (by simp [outside]), List.filter_nil]

private theorem pathsOutside_putNode {s : Store} (wf : s.WellFormed) {n : NodeRecord}
    (outside : scope.uuids n.uuid = false) (values : Table String Json.Value) :
    (s.putNode n values).repository.pathsOutside scope =
      s.repository.pathsOutside scope ++ s.aliasPaths n := by
  have paths : (s.putNode n values).repository.paths = s.repository.paths ++ s.aliasPaths n := by
    rw [wf.putNode_eq]
  unfold Repository.pathsOutside
  rw [nodesOutside_putNode wf outside, paths, List.filter_append]
  congr 1
  · refine List.filter_congr ?_
    intro e member
    obtain ⟨owner, stored, source⟩ := wf.consistent.pathsOwned e member
    have given := wf.given.nodes owner stored
    have differ : owner.1 ≠ s.lastId + 1 := Nat.ne_of_lt (Nat.lt_succ_of_le given)
    rw [source, nodeOfPath_nodePath]
    simp [differ]
  · refine List.filter_eq_self.mpr ?_
    intro e member
    rw [(WellFormed.mem_aliasPaths member).2, nodeOfPath_nodePath]
    simp

private theorem putNode_only (s : Store) (n : NodeRecord) (values : Table String Json.Value) :
    NodesOnly s (s.putNode n values) := by
  unfold Store.putNode
  cases n.pathAlias <;> exact ⟨rfl, rfl, rfl, rfl, rfl⟩

private theorem putNode_lastId {s : Store} (wf : s.WellFormed) (n : NodeRecord)
    (values : Table String Json.Value) :
    (s.putNode n values).lastId = s.lastId + (1 + (s.aliasPaths n).length) := by
  rw [wf.putNode_eq, Nat.add_assoc]

private theorem map_aliasPaths {s t : Store} {ρ : EntityId → EntityId} {n : NodeRecord}
    (same : ∀ i, 0 < i → i ≤ 1 + (s.aliasPaths n).length → ρ (s.lastId + i) = t.lastId + i) :
    (s.aliasPaths n).map (renamePath ρ) = t.aliasPaths n := by
  have node := same 1 Nat.one_pos (Nat.le_add_right _ _)
  unfold aliasPaths at same ⊢
  cases text : n.pathAlias with
  | none => rfl
  | some text' =>
    rw [text] at same
    have path := same 2 Nat.two_pos (Nat.le_refl _)
    simp [renamePath, node, path]

theorem putNode (alike : Alike scope start goal ρ a b) {n : NodeRecord}
    {values : Table String Json.Value} (outside : scope.uuids n.uuid = false)
    (titled : n.title ≠ "") (absentA : a.repository.nodeByUuid? n.uuid = none)
    (absentB : b.repository.nodeByUuid? n.uuid = none) (ascending : values.Ascending)
    (room : (a.putNode n values).lastId ≤ goal.lastId) :
    ∃ ρ', (∀ id ≤ a.lastId, ρ' id = ρ id) ∧ ρ' (a.lastId + 1) = b.lastId + 1 ∧
      Alike scope start goal ρ' (a.putNode n values) (b.putNode n values) := by
  have stepA : Edit .everything a (a.putNode n values) := .putNode rfl titled absentA ascending
  have stepB : Edit .everything b (b.putNode n values) := .putNode rfl titled absentB ascending
  have sameLength : (b.aliasPaths n).length = (a.aliasPaths n).length := by
    unfold aliasPaths
    cases n.pathAlias <;> rfl
  have lastA := putNode_lastId alike.first n values
  have lastB := putNode_lastId alike.second n values
  rw [sameLength] at lastB
  rw [lastA] at room
  have renamed := alike.renamed.extend room
  rw [← lastA, ← lastB] at renamed
  have agree : ∀ id ≤ a.lastId,
      extend ρ a.lastId b.lastId (1 + (a.aliasPaths n).length) id = ρ id :=
    fun id old => extend_of_le old _ _
  have new : ∀ i, 0 < i → i ≤ 1 + (a.aliasPaths n).length →
      extend ρ a.lastId b.lastId (1 + (a.aliasPaths n).length) (a.lastId + i) = b.lastId + i :=
    fun i positive within => extend_add _ _ positive within
  have node := new 1 Nat.one_pos (Nat.le_add_right _ _)
  refine ⟨_, agree, node, alike.ofNodes rfl (putNode_only a n values) (putNode_only b n values)
    (alike.first.edit stepA) (alike.second.edit stepB) renamed agree ?_ ?_ ?_⟩
  · rw [nodesOutside_putNode alike.first outside, nodesOutside_putNode alike.second outside,
      List.map_append, map_renameNode_congr alike.first.given agree, alike.nodes,
      List.map_singleton, renameNode, node]
  · rw [pathsOutside_putNode alike.first outside, pathsOutside_putNode alike.second outside,
      List.map_append, map_renamePath_congr alike.first.consistent alike.first.given agree,
      alike.paths, map_aliasPaths new]
  · rw [nodesOutside_putNode alike.first outside]
    intro e member behind
    rcases List.mem_append.mp member with old | added
    · rw [agree e.1 (alike.first.given.nodes e (List.mem_filter.mp old).1)]
      exact alike.newer e old behind
    · rw [List.mem_singleton.mp added, node]
      exact Nat.lt_succ_of_le alike.renamed.later

end Alike

end ContentImport.Store
