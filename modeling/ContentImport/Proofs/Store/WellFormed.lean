import ContentImport.Proofs.Store.Edit

/-!
Well-formed stores. The tables of a repository ascend, numbers were given out before they are used,
no two nodes share a uuid, a path is of a stored node, and a tag belongs to a stored vocabulary.
Every edit keeps this; below it each edit is the plain change of the tables that it amounts to.
-/

set_option autoImplicit false
set_option relaxedAutoImplicit false

namespace ContentImport.Store

/-- What holds among the entities of a repository. -/
structure Repository.Consistent (r : Repository) : Prop where
  tagsAscending : r.tags.Ascending
  nodesAscending : r.nodes.Ascending
  filesAscending : r.files.Ascending
  pathsAscending : r.paths.Ascending
  fieldsAscending : ∀ e ∈ r.nodes, e.2.fields.Ascending
  uuidsDistinct : r.nodes.Pairwise fun a b => a.2.uuid ≠ b.2.uuid
  pathsOwned : ∀ e ∈ r.paths, ∃ owner ∈ r.nodes, e.2.source = nodePath owner.1
  tagsHoused : ∀ e ∈ r.tags, Table.holds r.vocabularies e.2.vocabularyId = true

theorem Repository.Consistent.eq_of_uuid {r : Repository} (consistent : r.Consistent)
    {a b : EntityId × StoredNode} (first : a ∈ r.nodes) (second : b ∈ r.nodes)
    (same : a.2.uuid = b.2.uuid) : a = b := by
  have distinct : (r.nodes.map (·.2.uuid)).Nodup := List.pairwise_map.mpr consistent.uuidsDistinct
  exact List.inj_on_of_nodup_map distinct first second same

/-- The numbers in a repository are at most a last one. -/
structure Repository.GivenUpTo (r : Repository) (last : EntityId) : Prop where
  tags : ∀ e ∈ r.tags, e.1 ≤ last
  parents : ∀ e ∈ r.tags, ∀ parent ∈ e.2.parents, parent ≤ last
  nodes : ∀ e ∈ r.nodes, e.1 ≤ last
  files : ∀ e ∈ r.files, e.1 ≤ last
  paths : ∀ e ∈ r.paths, e.1 ≤ last

private theorem Repository.GivenUpTo.mono {r : Repository} {last later : EntityId}
    (given : r.GivenUpTo last) (le : last ≤ later) : r.GivenUpTo later where
  tags e member := le_trans (given.tags e member) le
  parents e member parent listed := le_trans (given.parents e member parent listed) le
  nodes e member := le_trans (given.nodes e member) le
  files e member := le_trans (given.files e member) le
  paths e member := le_trans (given.paths e member) le

/-- A store whose repository is consistent and uses no number that was not given out. -/
structure WellFormed (s : Store) : Prop where
  consistent : s.repository.Consistent
  given : s.repository.GivenUpTo s.lastId

namespace Repository

variable {r : Repository}

theorem mem_of_tagId? {vocabularyId name : String} {id : EntityId}
    (found : r.tagId? vocabularyId name = some id) :
    ∃ tag, (id, tag) ∈ r.tags ∧ tag.vocabularyId = vocabularyId ∧ tag.name = name := by
  obtain ⟨⟨key, tag⟩, hit, rfl⟩ := Option.map_eq_some_iff.mp found
  have told := List.find?_some hit
  simp only [Bool.and_eq_true, decide_eq_true_eq] at told
  exact ⟨tag, List.mem_of_find?_eq_some hit, told.1, told.2⟩

theorem mem_of_nodeByUuid? {uuid : String} {e : EntityId × StoredNode}
    (found : r.nodeByUuid? uuid = some e) : e ∈ r.nodes ∧ e.2.uuid = uuid := by
  refine ⟨List.mem_of_find?_eq_some found, ?_⟩
  simpa using List.find?_some found

theorem tagId?_eq_some_iff (ascending : r.tags.Ascending) {vocabularyId name : String}
    {id : EntityId} :
    r.tagId? vocabularyId name = some id ↔
      IsLeast { id | ∃ tag, (id, tag) ∈ r.tags ∧ tag.vocabularyId = vocabularyId ∧
        tag.name = name } id := by
  rw [tagId?, ascending.find?_key_eq_some_iff]
  simp

theorem nodeByUuid?_eq_none_iff {uuid : String} :
    r.nodeByUuid? uuid = none ↔ ∀ e ∈ r.nodes, e.2.uuid ≠ uuid := by
  simp [nodeByUuid?, List.find?_eq_none]

private theorem foldl_erase_pathsOf (ascending : r.paths.Ascending) (id : EntityId) :
    (r.pathsOf id).foldl Table.erase r.paths =
      r.paths.filter fun e => e.2.source ≠ nodePath id := by
  simpa [pathsOf] using ascending.foldl_erase_filter fun e => e.2.source = nodePath id

theorem removeNode_eq (ascending : r.paths.Ascending) (id : EntityId) :
    r.removeNode id =
      { r with
        nodes := r.nodes.filter fun e => e.1 ≠ id
        paths := r.paths.filter fun e => e.2.source ≠ nodePath id } := by
  rw [removeNode, foldl_erase_pathsOf ascending]
  rfl

theorem foldl_erase_tagsOf (ascending : r.tags.Ascending) (vocabularyId : String) :
    ((r.tagsOf vocabularyId).map (·.1)).foldl Table.erase r.tags =
      r.tags.filter fun e => e.2.vocabularyId ≠ vocabularyId := by
  simpa [tagsOf] using ascending.foldl_erase_filter fun e => e.2.vocabularyId = vocabularyId

end Repository

variable {s : Store}

/-- The path that a node gets, where it has an alias. -/
def aliasPaths (s : Store) (n : NodeRecord) : Table EntityId PathAlias :=
  (n.pathAlias.map fun text => (s.lastId + 2, ⟨nodePath (s.lastId + 1), "/" ++ text⟩)).toList

namespace WellFormed

theorem clearVocabulary_eq (wf : s.WellFormed) (id : String) :
    s.clearVocabulary id =
      { s with
        repository :=
          { s.repository with
            tags := s.repository.tags.filter fun e => e.2.vocabularyId ≠ id }
        ledger := s.ledger.forgetTags ((s.repository.tagsOf id).map (·.1)) } := by
  rw [clearVocabulary, Repository.foldl_erase_tagsOf wf.consistent.tagsAscending]

theorem putTag_eq (wf : s.WellFormed) (vocabularyId name : String) :
    s.putTag vocabularyId name =
      { s with
        repository :=
          { s.repository with
            tags := s.repository.tags ++ [(s.lastId + 1, ⟨vocabularyId, name, []⟩)] }
        ledger := s.ledger.recordTag (s.lastId + 1)
        lastId := s.lastId + 1 } := by
  rw [putTag, Table.put_eq_append fun e member => Nat.lt_succ_of_le (wf.given.tags e member)]

theorem putFile_eq (wf : s.WellFormed) (uri : String) :
    s.putFile uri =
      { s with
        repository :=
          { s.repository with files := s.repository.files ++ [(s.lastId + 1, uri)] }
        ledger := s.ledger.recordFile (s.lastId + 1)
        lastId := s.lastId + 1 } := by
  rw [putFile, Table.put_eq_append fun e member => Nat.lt_succ_of_le (wf.given.files e member)]

theorem dropNode_eq (wf : s.WellFormed) (id : EntityId) :
    s.dropNode id =
      { s with
        repository :=
          { s.repository with
            nodes := s.repository.nodes.filter fun e => e.1 ≠ id
            paths := s.repository.paths.filter fun e => e.2.source ≠ nodePath id }
        ledger := s.ledger.forgetNode id (s.repository.pathsOf id) } := by
  rw [dropNode, Repository.removeNode_eq wf.consistent.pathsAscending]

theorem putNode_eq (wf : s.WellFormed) (n : NodeRecord) (values : Table String Json.Value) :
    s.putNode n values =
      { s with
        repository :=
          { s.repository with
            nodes := s.repository.nodes ++ [(s.lastId + 1, ⟨n.uuid, n.title, n.bundle, values⟩)]
            paths := s.repository.paths ++ s.aliasPaths n }
        ledger :=
          { s.ledger with
            nodes := s.ledger.nodes ++ [(s.lastId + 1, n.uuid)]
            paths := s.ledger.paths ++ (s.aliasPaths n).map (·.1) }
        lastId := s.lastId + 1 + (s.aliasPaths n).length } := by
  have nodes : Table.put (s.lastId + 1) ⟨n.uuid, n.title, n.bundle, values⟩ s.repository.nodes =
      s.repository.nodes ++ [(s.lastId + 1, ⟨n.uuid, n.title, n.bundle, values⟩)] :=
    Table.put_eq_append (fun e member => Nat.lt_succ_of_le (wf.given.nodes e member)) _
  cases text : n.pathAlias with
  | none => simp [putNode, aliasPaths, text, nodes, Ledger.recordNode]
  | some text' =>
    have paths : Table.put (s.lastId + 1 + 1) ⟨nodePath (s.lastId + 1), "/" ++ text'⟩
        s.repository.paths =
        s.repository.paths ++ [(s.lastId + 1 + 1, ⟨nodePath (s.lastId + 1), "/" ++ text'⟩)] :=
      Table.put_eq_append
        (fun e member => Nat.lt_succ_of_lt (Nat.lt_succ_of_le (wf.given.paths e member))) _
    simp [putNode, addAlias, aliasPaths, text, nodes, paths, Ledger.recordNode, Ledger.recordPath]

private theorem putVocabulary (wf : s.WellFormed) (id name : String) :
    (s.putVocabulary id name).WellFormed := by
  refine ⟨{ wf.consistent with tagsHoused := ?_ }, { wf.given with }⟩
  intro e member
  have housed := wf.consistent.tagsHoused e member
  simp only [Store.putVocabulary, Table.holds, Table.get?_put] at housed ⊢
  split
  · rfl
  · exact housed

private theorem clearVocabulary (wf : s.WellFormed) (id : String) :
    (s.clearVocabulary id).WellFormed := by
  rw [wf.clearVocabulary_eq]
  refine ⟨{ wf.consistent with tagsAscending := ?_, tagsHoused := ?_ },
    { wf.given with tags := ?_, parents := ?_ }⟩
  · exact List.Pairwise.filter _ wf.consistent.tagsAscending
  · exact fun e member => wf.consistent.tagsHoused e (List.mem_filter.mp member).1
  · exact fun e member => wf.given.tags e (List.mem_filter.mp member).1
  · exact fun e member => wf.given.parents e (List.mem_filter.mp member).1

private theorem putTag (wf : s.WellFormed) {vocabularyId : String} (name : String)
    (housed : Table.holds s.repository.vocabularies vocabularyId = true) :
    (s.putTag vocabularyId name).WellFormed := by
  rw [wf.putTag_eq]
  have given := wf.given.mono (Nat.le_succ s.lastId)
  refine ⟨{ wf.consistent with tagsAscending := ?_, tagsHoused := ?_ },
    { given with tags := ?_, parents := ?_ }⟩
  · exact wf.consistent.tagsAscending.append
      (fun e member => Nat.lt_succ_of_le (wf.given.tags e member)) _
  · intro e member
    rcases List.mem_append.mp member with old | new
    · exact wf.consistent.tagsHoused e old
    · rw [List.mem_singleton.mp new]
      exact housed
  · intro e member
    rcases List.mem_append.mp member with old | new
    · exact given.tags e old
    · exact le_of_eq (congrArg Prod.fst (List.mem_singleton.mp new))
  · intro e member
    rcases List.mem_append.mp member with old | new
    · exact given.parents e old
    · rw [List.mem_singleton.mp new]
      simp

private theorem setParents (wf : s.WellFormed) (id : EntityId) {parents : List EntityId}
    (given : ∀ parent ∈ parents, parent ≤ s.lastId) : (s.setParents id parents).WellFormed := by
  have adjusted : ∀ e ∈ (s.setParents id parents).repository.tags,
      ∃ old ∈ s.repository.tags, e.1 = old.1 ∧ e.2.vocabularyId = old.2.vocabularyId ∧
        (e.2.parents = old.2.parents ∨ e.2.parents = parents) := by
    intro e member
    obtain ⟨old, held, rfl⟩ := List.mem_map.mp member
    refine ⟨old, held, ?_⟩
    split <;> simp
  refine ⟨{ wf.consistent with tagsAscending := ?_, tagsHoused := ?_ },
    { wf.given with tags := ?_, parents := ?_ }⟩
  · exact wf.consistent.tagsAscending.adjust id fun tag => { tag with parents }
  · intro e member
    obtain ⟨old, held, -, vocabulary, -⟩ := adjusted e member
    exact vocabulary ▸ wf.consistent.tagsHoused old held
  · intro e member
    obtain ⟨old, held, key, -⟩ := adjusted e member
    exact key ▸ wf.given.tags old held
  · intro e member parent listed
    obtain ⟨old, held, -, -, kept | replaced⟩ := adjusted e member
    · exact wf.given.parents old held parent (kept ▸ listed)
    · exact given parent (replaced ▸ listed)

private theorem putFile (wf : s.WellFormed) (uri : String) : (s.putFile uri).WellFormed := by
  rw [wf.putFile_eq]
  have given := wf.given.mono (Nat.le_succ s.lastId)
  refine ⟨{ wf.consistent with filesAscending := ?_ }, { given with files := ?_ }⟩
  · exact wf.consistent.filesAscending.append
      (fun e member => Nat.lt_succ_of_le (wf.given.files e member)) _
  · intro e member
    rcases List.mem_append.mp member with old | new
    · exact given.files e old
    · exact le_of_eq (congrArg Prod.fst (List.mem_singleton.mp new))

private theorem dropNode (wf : s.WellFormed) (id : EntityId) : (s.dropNode id).WellFormed := by
  rw [wf.dropNode_eq]
  refine ⟨{ wf.consistent with
      nodesAscending := ?_, pathsAscending := ?_, fieldsAscending := ?_, uuidsDistinct := ?_,
      pathsOwned := ?_ }, { wf.given with nodes := ?_, paths := ?_ }⟩
  · exact List.Pairwise.filter _ wf.consistent.nodesAscending
  · exact List.Pairwise.filter _ wf.consistent.pathsAscending
  · exact fun e member => wf.consistent.fieldsAscending e (List.mem_filter.mp member).1
  · exact List.Pairwise.filter _ wf.consistent.uuidsDistinct
  · intro e member
    obtain ⟨held, elsewhere⟩ := List.mem_filter.mp member
    obtain ⟨owner, stored, source⟩ := wf.consistent.pathsOwned e held
    refine ⟨owner, List.mem_filter.mpr ⟨stored, ?_⟩, source⟩
    simpa [source] using elsewhere
  · exact fun e member => wf.given.nodes e (List.mem_filter.mp member).1
  · exact fun e member => wf.given.paths e (List.mem_filter.mp member).1

theorem mem_aliasPaths {n : NodeRecord} {e : EntityId × PathAlias}
    (member : e ∈ s.aliasPaths n) :
    e.1 = s.lastId + 1 + (s.aliasPaths n).length ∧ e.2.source = nodePath (s.lastId + 1) := by
  unfold aliasPaths at member ⊢
  cases text : n.pathAlias with
  | none => simp [text] at member
  | some text' =>
    rw [text] at member
    obtain rfl := List.mem_singleton.mp member
    exact ⟨rfl, rfl⟩

private theorem putNode (wf : s.WellFormed) {n : NodeRecord} {values : Table String Json.Value}
    (absent : s.repository.nodeByUuid? n.uuid = none) (ascending : values.Ascending) :
    (s.putNode n values).WellFormed := by
  rw [wf.putNode_eq]
  have fresh := Repository.nodeByUuid?_eq_none_iff.mp absent
  have later : s.lastId < s.lastId + 1 + (s.aliasPaths n).length :=
    Nat.lt_of_lt_of_le (Nat.lt_succ_self _) (Nat.le_add_right _ _)
  have given := wf.given.mono (Nat.le_of_lt later)
  refine ⟨{ wf.consistent with
      nodesAscending := ?_, pathsAscending := ?_, fieldsAscending := ?_, uuidsDistinct := ?_,
      pathsOwned := ?_ }, { given with nodes := ?_, paths := ?_ }⟩
  · exact wf.consistent.nodesAscending.append
      (fun e member => Nat.lt_succ_of_le (wf.given.nodes e member)) _
  · refine List.pairwise_append.mpr ⟨wf.consistent.pathsAscending, ?_, ?_⟩
    · unfold aliasPaths
      cases n.pathAlias <;> simp
    · intro old held new added
      rw [(mem_aliasPaths added).1]
      exact Nat.lt_of_le_of_lt (wf.given.paths old held) later
  · intro e member
    rcases List.mem_append.mp member with old | new
    · exact wf.consistent.fieldsAscending e old
    · rw [List.mem_singleton.mp new]
      exact ascending
  · refine List.pairwise_append.mpr ⟨wf.consistent.uuidsDistinct, List.pairwise_singleton _ _, ?_⟩
    intro old held new added
    rw [List.mem_singleton.mp added]
    exact fresh old held
  · intro e member
    rcases List.mem_append.mp member with old | new
    · obtain ⟨owner, stored, source⟩ := wf.consistent.pathsOwned e old
      exact ⟨owner, List.mem_append_left _ stored, source⟩
    · exact ⟨_, List.mem_append_right _ List.mem_cons_self, (mem_aliasPaths new).2⟩
  · intro e member
    rcases List.mem_append.mp member with old | new
    · exact given.nodes e old
    · rw [List.mem_singleton.mp new]
      exact Nat.le_add_right _ _
  · intro e member
    rcases List.mem_append.mp member with old | new
    · exact given.paths e old
    · exact le_of_eq (mem_aliasPaths new).1

variable {scope : Scope} {t : Store}

/-- Every edit keeps a store well-formed. -/
theorem edit (wf : s.WellFormed) (step : Edit scope s t) : t.WellFormed := by
  cases step with
  | putVocabulary name absent => exact wf.putVocabulary _ name
  | clearVocabulary within overwrites => exact wf.clearVocabulary _
  | putTag within named housed => exact wf.putTag _ housed
  | setParents within found names =>
    refine wf.setParents _ ?_
    intro parent listed
    obtain ⟨parentName, -, hit⟩ := List.mem_filterMap.mp listed
    obtain ⟨tag, held, -⟩ := Repository.mem_of_tagId? hit
    exact wf.given.tags _ held
  | putFile absent => exact wf.putFile _
  | dropNode within overwrites found => exact wf.dropNode _
  | putNode within titled absent ascending => exact wf.putNode absent ascending

theorem edits (wf : s.WellFormed) (steps : Edits scope s t) : t.WellFormed := by
  induction steps with
  | refl => exact wf
  | tail _ step ih => exact ih.edit step

theorem insertReference (wf : s.WellFormed) (w : ReferenceWrite) :
    (s.insertReference w).WellFormed := by
  have adjusted : ∀ e ∈ (s.insertReference w).repository.nodes,
      ∃ old ∈ s.repository.nodes, e.1 = old.1 ∧ e.2.fields.Ascending := by
    intro e member
    obtain ⟨old, held, rfl⟩ := List.mem_map.mp member
    have before := wf.consistent.fieldsAscending old held
    refine ⟨old, held, ?_⟩
    split
    · exact ⟨rfl, before.put _ _⟩
    · exact ⟨rfl, before⟩
  refine ⟨{ wf.consistent with
      nodesAscending := ?_, fieldsAscending := ?_, uuidsDistinct := ?_, pathsOwned := ?_ },
    { wf.given with nodes := ?_ }⟩
  · exact wf.consistent.nodesAscending.adjust w.node fun n =>
      { n with fields := Table.put w.fieldName _ n.fields }
  · intro e member
    obtain ⟨old, -, -, fields⟩ := adjusted e member
    exact fields
  · refine List.pairwise_map.mpr (wf.consistent.uuidsDistinct.imp ?_)
    intro a b differ
    split <;> split <;> exact differ
  · intro e member
    obtain ⟨owner, stored, source⟩ := wf.consistent.pathsOwned e member
    refine ⟨_, List.mem_map_of_mem stored, ?_⟩
    split <;> exact source
  · intro e member
    obtain ⟨old, held, key, -⟩ := adjusted e member
    exact key ▸ wf.given.nodes old held

theorem insertReferences (wf : s.WellFormed) (writes : List ReferenceWrite) :
    (s.insertReferences writes).WellFormed := by
  induction writes generalizing s with
  | nil => exact wf
  | cons w writes ih => exact ih (wf.insertReference w)

theorem empty (overwrite : Bool) (contentModel : Table String (List String)) :
    (Store.empty overwrite contentModel).WellFormed := by
  constructor <;> constructor <;> first | exact List.Pairwise.nil | (intro e member; cases member)

end WellFormed

end ContentImport.Store
