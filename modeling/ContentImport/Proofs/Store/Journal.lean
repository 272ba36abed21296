import ContentImport.Proofs.Store.WellFormed

/-!
What the ledger of a run records. Numbers up to a mark were given out before the run; the ledger
lists the entities behind the mark, and no others, in the order of their tables. A rollback
therefore leaves the entities up to the mark, and commit and rollback both begin a new run.
-/

set_option autoImplicit false
set_option relaxedAutoImplicit false

namespace ContentImport.Store

/-- A store in whose run the numbers behind a mark were given out. -/
structure Journal (mark : EntityId) (s : Store) : Prop where
  marked : mark ≤ s.lastId
  tags : s.ledger.tags = (s.repository.tags.filter (mark < ·.1)).map (·.1)
  nodes : s.ledger.nodes = (s.repository.nodes.filter (mark < ·.1)).map fun e => (e.1, e.2.uuid)
  files : s.ledger.files = (s.repository.files.filter (mark < ·.1)).map (·.1)
  paths : s.ledger.paths = (s.repository.paths.filter (mark < ·.1)).map (·.1)
  /-- Tags that are older than the run are in vocabularies that are older than the run. -/
  housed : ∀ e ∈ s.repository.tags, e.1 ≤ mark → e.2.vocabularyId ∉ s.ledger.vocabularies
  /-- Paths and the nodes that they are of are of the same run. -/
  owned : ∀ e ∈ s.repository.paths, mark < nodeOfPath e.2.source ↔ mark < e.1

variable {s : Store} {mark : EntityId}

theorem WellFormed.journal (wf : s.WellFormed) (settled : s.ledger = .empty) :
    Journal s.lastId s where
  marked := Nat.le_refl _
  tags := by
    rw [settled, List.filter_eq_nil_iff.mpr fun e member => ?_]
    · rfl
    · simpa using wf.given.tags e member
  nodes := by
    rw [settled, List.filter_eq_nil_iff.mpr fun e member => ?_]
    · rfl
    · simpa using wf.given.nodes e member
  files := by
    rw [settled, List.filter_eq_nil_iff.mpr fun e member => ?_]
    · rfl
    · simpa using wf.given.files e member
  paths := by
    rw [settled, List.filter_eq_nil_iff.mpr fun e member => ?_]
    · rfl
    · simpa using wf.given.paths e member
  housed e _ _ := by simp [settled, Ledger.empty]
  owned e member := by
    obtain ⟨owner, stored, source⟩ := wf.consistent.pathsOwned e member
    rw [source, nodeOfPath_nodePath]
    exact iff_of_false (Nat.not_lt.mpr (wf.given.nodes owner stored))
      (Nat.not_lt.mpr (wf.given.paths e member))

namespace Journal

private theorem filter_append_behind {ν : Type} (t : Table EntityId ν) {last : EntityId} (value : ν)
    (marked : mark ≤ last) :
    (t ++ [(last + 1, value)]).filter (mark < ·.1) =
      t.filter (mark < ·.1) ++ [(last + 1, value)] := by
  have behind : mark < last + 1 := Nat.lt_succ_of_le marked
  rw [List.filter_append, List.filter_cons_of_pos (by simpa using behind), List.filter_nil]

private theorem putVocabulary (wf : s.WellFormed) (journal : Journal mark s) {id : String}
    (name : String) (absent : Table.holds s.repository.vocabularies id = false) :
    Journal mark (s.putVocabulary id name) := by
  refine { journal with housed := ?_ }
  intro e member old entered
  rcases List.mem_append.mp entered with before | new
  · exact journal.housed e member old before
  · have held := wf.consistent.tagsHoused e member
    rw [List.mem_singleton.mp new, absent] at held
    exact Bool.false_ne_true held

private theorem clearVocabulary (wf : s.WellFormed) (journal : Journal mark s) (id : String) :
    Journal mark (s.clearVocabulary id) := by
  rw [wf.clearVocabulary_eq]
  refine { journal with tags := ?_, housed := ?_ }
  · simp only [Ledger.forgetTags, journal.tags]
    simpa using wf.consistent.tagsAscending.filter_keys_filter
      (fun e => e.2.vocabularyId = id) (fun e => mark < e.1)
      (rfl : (s.repository.tagsOf id).map (·.1) = _)
  · exact fun e member => journal.housed e (List.mem_filter.mp member).1

private theorem putTag (wf : s.WellFormed) (journal : Journal mark s)
    (vocabularyId name : String) : Journal mark (s.putTag vocabularyId name) := by
  rw [wf.putTag_eq]
  refine { journal with marked := ?_, tags := ?_, housed := ?_ }
  · exact Nat.le_succ_of_le journal.marked
  · rw [filter_append_behind _ _ journal.marked, List.map_append, ← journal.tags]
    rfl
  · intro e member old
    rcases List.mem_append.mp member with before | new
    · exact journal.housed e before old
    · rw [List.mem_singleton.mp new] at old
      exact absurd (Nat.lt_succ_of_le journal.marked) (Nat.not_lt.mpr old)

private theorem setParents (journal : Journal mark s) (id : EntityId) (parents : List EntityId) :
    Journal mark (s.setParents id parents) := by
  refine { journal with tags := ?_, housed := ?_ }
  · simp only [Store.setParents, Table.adjust, List.filter_map, List.map_map]
    rw [journal.tags]
    have keys : ∀ e : EntityId × StoredTag,
        (if e.1 = id then (e.1, { e.2 with parents }) else e).1 = e.1 := by
      intro e
      split <;> rfl
    simp only [Function.comp_def, keys]
  · intro e member
    obtain ⟨old, held, rfl⟩ := List.mem_map.mp member
    split <;> exact journal.housed old held

private theorem putFile (wf : s.WellFormed) (journal : Journal mark s) (uri : String) :
    Journal mark (s.putFile uri) := by
  rw [wf.putFile_eq]
  refine { journal with marked := ?_, files := ?_ }
  · exact Nat.le_succ_of_le journal.marked
  · rw [filter_append_behind _ _ journal.marked, List.map_append, ← journal.files]
    rfl

private theorem dropNode (wf : s.WellFormed) (journal : Journal mark s) (id : EntityId) :
    Journal mark (s.dropNode id) := by
  rw [wf.dropNode_eq]
  refine { journal with nodes := ?_, paths := ?_, owned := ?_ }
  · change s.ledger.nodes.filter (·.1 ≠ id) = _
    rw [journal.nodes, List.filter_map, List.filter_filter, List.filter_filter]
    refine congrArg (List.map _) (List.filter_congr ?_)
    intro e _
    exact Bool.and_comm _ _
  · simp only [Ledger.forgetNode, journal.paths]
    simpa using wf.consistent.pathsAscending.filter_keys_filter
      (fun e => e.2.source = nodePath id) (fun e => mark < e.1)
      (rfl : s.repository.pathsOf id = _)
  · exact fun e member => journal.owned e (List.mem_filter.mp member).1

private theorem putNode (wf : s.WellFormed) (journal : Journal mark s) (n : NodeRecord)
    (values : Table String Json.Value) : Journal mark (s.putNode n values) := by
  rw [wf.putNode_eq]
  have marked : mark < s.lastId + 1 := Nat.lt_succ_of_le journal.marked
  have later : mark < s.lastId + 2 := Nat.lt_succ_of_lt marked
  have aliases : (s.aliasPaths n).filter (mark < ·.1) = s.aliasPaths n := by
    refine List.filter_eq_self.mpr ?_
    intro e member
    unfold aliasPaths at member
    cases text : n.pathAlias with
    | none => simp [text] at member
    | some text' =>
      rw [text] at member
      rw [List.mem_singleton.mp member]
      exact decide_eq_true later
  refine { journal with marked := ?_, nodes := ?_, paths := ?_, owned := ?_ }
  · exact Nat.le_trans (Nat.le_of_lt marked) (Nat.le_add_right _ _)
  · rw [filter_append_behind _ _ journal.marked, List.map_append, ← journal.nodes]
    rfl
  · rw [List.filter_append, aliases, List.map_append, ← journal.paths]
  · intro e member
    rcases List.mem_append.mp member with before | new
    · exact journal.owned e before
    · unfold aliasPaths at new
      cases text : n.pathAlias with
      | none => simp [text] at new
      | some text' =>
        rw [text] at new
        rw [List.mem_singleton.mp new, nodeOfPath_nodePath]
        exact iff_of_true marked later

variable {scope : Scope} {t : Store}

private theorem edit (wf : s.WellFormed) (journal : Journal mark s) (step : Edit scope s t) :
    Journal mark t := by
  cases step with
  | putVocabulary name absent => exact journal.putVocabulary wf name absent
  | clearVocabulary within overwrites => exact journal.clearVocabulary wf _
  | putTag within named housed => exact journal.putTag wf _ _
  | setParents within found names => exact journal.setParents _ _
  | putFile absent => exact journal.putFile wf _
  | dropNode within overwrites found => exact journal.dropNode wf _
  | putNode within titled absent ascending => exact journal.putNode wf _ _

theorem edits (wf : s.WellFormed) (journal : Journal mark s) (steps : Edits scope s t) :
    Journal mark t := by
  induction steps with
  | refl => exact journal
  | tail before step ih => exact ih.edit (wf.edits before) step

private theorem insertReference (journal : Journal mark s) (w : ReferenceWrite) :
    Journal mark (s.insertReference w) := by
  refine { journal with nodes := ?_ }
  simp only [Store.insertReference, Table.adjust, List.filter_map, List.map_map]
  rw [journal.nodes]
  simp only [Function.comp_def, apply_ite Prod.fst, apply_ite Prod.snd,
    apply_ite StoredNode.uuid, ite_self]

theorem insertReferences (journal : Journal mark s) (writes : List ReferenceWrite) :
    Journal mark (s.insertReferences writes) := by
  induction writes generalizing s with
  | nil => exact journal
  | cons w writes ih => exact ih (journal.insertReference w)

private theorem mem_ledger_nodes (journal : Journal mark s) {id : EntityId} {uuid : String} :
    (id, uuid) ∈ s.ledger.nodes ↔
      mark < id ∧ ∃ node, (id, node) ∈ s.repository.nodes ∧ node.uuid = uuid := by
  simp only [journal.nodes, List.mem_map, List.mem_filter, decide_eq_true_eq]
  constructor
  · rintro ⟨e, ⟨stored, newer⟩, same⟩
    obtain ⟨rfl, rfl⟩ := Prod.mk.inj same
    exact ⟨newer, e.2, stored, rfl⟩
  · rintro ⟨newer, node, stored, rfl⟩
    exact ⟨(id, node), ⟨stored, newer⟩, rfl⟩

/-- The node that a run created under a uuid is the stored one of the uuid, where it is behind the
mark. -/
theorem createdNodeId?_eq_some_iff (journal : Journal mark s) (wf : s.WellFormed)
    {uuid : String} {id : EntityId} :
    s.createdNodeId? uuid = some id ↔
      mark < id ∧ ∃ node, (id, node) ∈ s.repository.nodes ∧ node.uuid = uuid := by
  rw [← journal.mem_ledger_nodes]
  unfold createdNodeId? Ledger.nodeId?
  constructor
  · intro found
    obtain ⟨⟨key, name⟩, hit, rfl⟩ := Option.map_eq_some_iff.mp found
    have named : name = uuid := by simpa using List.find?_some hit
    exact named ▸ List.mem_of_find?_eq_some hit
  · intro entered
    have present : (s.ledger.nodes.find? (·.2 = uuid)).isSome = true :=
      List.find?_isSome.mpr ⟨_, entered, by simp⟩
    obtain ⟨⟨key, name⟩, hit⟩ := Option.isSome_iff_exists.mp present
    have named : name = uuid := by simpa using List.find?_some hit
    obtain ⟨-, other, there, same⟩ := journal.mem_ledger_nodes.mp (List.mem_of_find?_eq_some hit)
    obtain ⟨-, node, stored, uuids⟩ := journal.mem_ledger_nodes.mp entered
    have equal := wf.consistent.eq_of_uuid there stored (same.trans (named.trans uuids.symm))
    rw [hit, Option.map_some, (Prod.mk.inj equal).1]

end Journal

private theorem Repository.foldl_removeNode {r : Repository} (ascending : r.paths.Ascending)
    (ids : List EntityId) :
    ids.foldl Repository.removeNode r =
      { r with
        nodes := r.nodes.filter fun e => e.1 ∉ ids
        paths := r.paths.filter fun e => e.2.source ∉ ids.map nodePath } := by
  induction ids generalizing r with
  | nil => simp
  | cons id ids ih =>
    have shorter : (r.removeNode id).paths.Ascending := by
      rw [Repository.removeNode_eq ascending]
      exact List.Pairwise.filter _ ascending
    rw [List.foldl_cons, ih shorter, Repository.removeNode_eq ascending]
    simp [List.filter_filter, Bool.and_comm]

/-- The entities up to a mark, and the vocabularies outside a list. -/
def Repository.upTo (r : Repository) (mark : EntityId) (entered : List String) : Repository where
  vocabularies := r.vocabularies.filter (·.1 ∉ entered)
  tags := r.tags.filter (·.1 ≤ mark)
  nodes := r.nodes.filter (·.1 ≤ mark)
  files := r.files.filter (·.1 ≤ mark)
  paths := r.paths.filter (·.1 ≤ mark)

private theorem filter_unlisted {ν : Type} {table : Table EntityId ν} {listed : List EntityId}
    (ascending : table.Ascending)
    (entered : listed = (table.filter (mark < ·.1)).map (·.1)) :
    (table.filter fun e => e.1 ∉ listed.reverse) = table.filter (·.1 ≤ mark) := by
  refine List.filter_congr ?_
  intro e member
  have picked := ascending.mem_keys_filter (fun e => decide (mark < e.1)) member
  rw [← entered, decide_eq_true_eq] at picked
  refine decide_eq_decide.mpr ?_
  rw [List.mem_reverse, picked, Nat.not_lt]

namespace Journal

private theorem nodeIds (journal : Journal mark s) :
    s.ledger.nodes.map (·.1) = (s.repository.nodes.filter (mark < ·.1)).map (·.1) := by
  rw [journal.nodes, List.map_map]
  rfl

private theorem filter_paths (journal : Journal mark s) :
    ((s.repository.paths.filter (·.1 ≤ mark)).filter fun e =>
      e.2.source ∉ (s.ledger.nodes.map (·.1)).reverse.map nodePath) =
        s.repository.paths.filter (·.1 ≤ mark) := by
  refine List.filter_eq_self.mpr ?_
  intro e member
  obtain ⟨held, old⟩ := List.mem_filter.mp member
  refine decide_eq_true ?_
  intro led
  obtain ⟨id, entered, source⟩ := List.mem_map.mp led
  rw [List.mem_reverse, journal.nodeIds] at entered
  obtain ⟨node, new, rfl⟩ := List.mem_map.mp entered
  have behind := of_decide_eq_true (List.mem_filter.mp new).2
  have owned := journal.owned e held
  rw [← source, nodeOfPath_nodePath] at owned
  exact Nat.not_lt.mpr (of_decide_eq_true old) (owned.mp behind)

/-- A rollback leaves what is older than the run. -/
theorem rollback_eq (journal : Journal mark s) (wf : s.WellFormed) :
    s.rollback =
      { s with
        repository := s.repository.upTo mark s.ledger.vocabularies
        ledger := .empty } := by
  have tags := filter_unlisted wf.consistent.tagsAscending journal.tags
  have nodes := filter_unlisted wf.consistent.nodesAscending journal.nodeIds
  have files := filter_unlisted wf.consistent.filesAscending journal.files
  have paths := filter_unlisted wf.consistent.pathsAscending journal.paths
  have shorter : Table.Ascending
      (s.repository.paths.filter fun e => e.1 ∉ s.ledger.paths.reverse) :=
    List.Pairwise.filter _ wf.consistent.pathsAscending
  -- Paths are taken away by number first; removing the nodes then finds none of theirs left, since
  -- paths and their nodes are of one run.
  simp only [rollback, Ledger.rollbackPlan, Table.foldl_erase]
  rw [Repository.foldl_removeNode shorter, paths, journal.filter_paths]
  rw [nodes, tags, files]
  simp only [Repository.upTo, List.mem_reverse]

theorem rollback_wellFormed (journal : Journal mark s) (wf : s.WellFormed) :
    s.rollback.WellFormed := by
  rw [journal.rollback_eq wf]
  have consistent := wf.consistent
  refine ⟨⟨?_, ?_, ?_, ?_, ?_, ?_, ?_, ?_⟩, ⟨?_, ?_, ?_, ?_, ?_⟩⟩
  · exact List.Pairwise.filter _ consistent.tagsAscending
  · exact List.Pairwise.filter _ consistent.nodesAscending
  · exact List.Pairwise.filter _ consistent.filesAscending
  · exact List.Pairwise.filter _ consistent.pathsAscending
  · exact fun e member => consistent.fieldsAscending e (List.mem_filter.mp member).1
  · exact List.Pairwise.filter _ consistent.uuidsDistinct
  · intro e member
    obtain ⟨held, old⟩ := List.mem_filter.mp member
    obtain ⟨owner, stored, source⟩ := consistent.pathsOwned e held
    have owned := journal.owned e held
    rw [source, nodeOfPath_nodePath] at owned
    have older : owner.1 ≤ mark :=
      Nat.not_lt.mp (owned.not.mpr (Nat.not_lt.mpr (of_decide_eq_true old)))
    exact ⟨owner, List.mem_filter.mpr ⟨stored, decide_eq_true older⟩, source⟩
  · intro e member
    obtain ⟨held, old⟩ := List.mem_filter.mp member
    obtain ⟨name, entry⟩ := Table.holds_iff.mp (consistent.tagsHoused e held)
    have stays := journal.housed e held (of_decide_eq_true old)
    exact Table.holds_iff.mpr ⟨name, List.mem_filter.mpr ⟨entry, decide_eq_true stays⟩⟩
  · exact fun e member => wf.given.tags e (List.mem_filter.mp member).1
  · exact fun e member => wf.given.parents e (List.mem_filter.mp member).1
  · exact fun e member => wf.given.nodes e (List.mem_filter.mp member).1
  · exact fun e member => wf.given.files e (List.mem_filter.mp member).1
  · exact fun e member => wf.given.paths e (List.mem_filter.mp member).1

end Journal

end ContentImport.Store
