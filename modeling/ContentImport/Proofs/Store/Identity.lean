import ContentImport.Proofs.Store.Operation

/-!
Identities. In every store that operations lead to, uuids, uris and the paths of nodes tell entities
apart, and so do their numbers: each was given to one entity of one kind, and one that was freed is
never given out again.
-/

set_option autoImplicit false
set_option relaxedAutoImplicit false

namespace ContentImport.Store

/-- The kinds of entities that have numbers. -/
inductive EntityKind where
  | tag
  | node
  | file
  | path
  deriving DecidableEq, Repr

def Repository.ids (r : Repository) : EntityKind → List EntityId
  | .tag => r.tags.map (·.1)
  | .node => r.nodes.map (·.1)
  | .file => r.files.map (·.1)
  | .path => r.paths.map (·.1)

/-- What stays of an entity as long as it is there: tags may get other parents, and nodes other
fields. -/
inductive Label where
  | tag (vocabularyId name : String)
  | node (uuid title bundle : String)
  | file (uri : String)
  | path (entry : PathAlias)
  deriving DecidableEq, Repr

def Label.kind : Label → EntityKind
  | .tag _ _ => .tag
  | .node _ _ _ => .node
  | .file _ => .file
  | .path _ => .path

namespace Repository

def Numbers (r : Repository) (id : EntityId) : Label → Prop
  | .tag vocabularyId name => ∃ parents, (id, ⟨vocabularyId, name, parents⟩) ∈ r.tags
  | .node uuid title bundle => ∃ fields, (id, ⟨uuid, title, bundle, fields⟩) ∈ r.nodes
  | .file uri => (id, uri) ∈ r.files
  | .path entry => (id, entry) ∈ r.paths

/-- A number is behind all numbers that are in use. -/
def Below (r : Repository) (id : EntityId) : Prop :=
  ∀ kind, ∀ used ∈ r.ids kind, used < id

private theorem mem_ids_iff {r : Repository} {kind : EntityKind} {id : EntityId} :
    id ∈ r.ids kind ↔ ∃ label, label.kind = kind ∧ r.Numbers id label := by
  constructor
  · intro used
    cases kind with
    | tag =>
      obtain ⟨⟨_, vocabularyId, name, parents⟩, member, rfl⟩ := List.mem_map.mp used
      exact ⟨.tag vocabularyId name, rfl, parents, member⟩
    | node =>
      obtain ⟨⟨_, uuid, title, bundle, fields⟩, member, rfl⟩ := List.mem_map.mp used
      exact ⟨.node uuid title bundle, rfl, fields, member⟩
    | file =>
      obtain ⟨⟨_, uri⟩, member, rfl⟩ := List.mem_map.mp used
      exact ⟨.file uri, rfl, member⟩
    | path =>
      obtain ⟨⟨_, entry⟩, member, rfl⟩ := List.mem_map.mp used
      exact ⟨.path entry, rfl, member⟩
  · rintro ⟨label, rfl, numbered⟩
    cases label with
    | tag vocabularyId name =>
      obtain ⟨parents, member⟩ := numbered
      exact List.mem_map_of_mem member
    | node uuid title bundle =>
      obtain ⟨fields, member⟩ := numbered
      exact List.mem_map_of_mem member
    | file uri => exact List.mem_map_of_mem numbered
    | path entry => exact List.mem_map_of_mem numbered

theorem GivenUpTo.ids {r : Repository} {last : EntityId} (given : r.GivenUpTo last)
    {kind : EntityKind} {id : EntityId} (used : id ∈ r.ids kind) : id ≤ last := by
  cases kind with
  | tag =>
    obtain ⟨e, member, rfl⟩ := List.mem_map.mp used
    exact given.tags e member
  | node =>
    obtain ⟨e, member, rfl⟩ := List.mem_map.mp used
    exact given.nodes e member
  | file =>
    obtain ⟨e, member, rfl⟩ := List.mem_map.mp used
    exact given.files e member
  | path =>
    obtain ⟨e, member, rfl⟩ := List.mem_map.mp used
    exact given.paths e member

theorem Consistent.ids_nodup {r : Repository} (consistent : r.Consistent)
    (kind : EntityKind) : (r.ids kind).Nodup := by
  cases kind with
  | tag => exact List.pairwise_map.mpr (consistent.tagsAscending.imp Nat.ne_of_lt)
  | node => exact List.pairwise_map.mpr (consistent.nodesAscending.imp Nat.ne_of_lt)
  | file => exact List.pairwise_map.mpr (consistent.filesAscending.imp Nat.ne_of_lt)
  | path => exact List.pairwise_map.mpr (consistent.pathsAscending.imp Nat.ne_of_lt)

private theorem aliasOf?_eq {r : Repository}
    (single : r.paths.Pairwise fun a b => a.2.source ≠ b.2.source) {path : EntityId × PathAlias}
    (member : path ∈ r.paths) {owner : EntityId} (source : path.2.source = nodePath owner) :
    r.aliasOf? owner = some path.2.path := by
  have sources : (r.paths.map (·.2.source)).Nodup := List.pairwise_map.mpr single
  rw [aliasOf?, (find?_eq_some_iff_of_nodup sources).mpr ⟨member, source⟩]
  rfl

end Repository

variable {scope : Scope} {s t u : Store}

/-! ## Numbers -/

/-- A store that came from another one by freeing numbers and giving out ones behind the last, each
to an entity of one kind. -/
structure Renumbers (s t : Store) : Prop where
  lastId : s.lastId ≤ t.lastId
  numbers : ∀ {id label}, t.repository.Numbers id label →
    s.repository.Numbers id label ∨ s.lastId < id
  apart : ∀ {kind other id}, s.lastId < id → id ∈ t.repository.ids kind →
    id ∈ t.repository.ids other → kind = other

namespace Renumbers

theorem ids (renumbers : Renumbers s t) {kind : EntityKind} {id : EntityId}
    (used : id ∈ t.repository.ids kind) : id ∈ s.repository.ids kind ∨ s.lastId < id := by
  obtain ⟨label, same, numbered⟩ := Repository.mem_ids_iff.mp used
  refine (renumbers.numbers numbered).imp_left fun before => ?_
  exact Repository.mem_ids_iff.mpr ⟨label, same, before⟩

private theorem trans (first : Renumbers s t) (second : Renumbers t u) : Renumbers s u := by
  refine ⟨Nat.le_trans first.lastId second.lastId, ?_, ?_⟩
  · intro id label numbered
    rcases second.numbers numbered with before | new
    · exact first.numbers before
    · exact .inr (Nat.lt_of_le_of_lt first.lastId new)
  · intro kind other id newer used used'
    by_cases new : t.lastId < id
    · exact second.apart new used used'
    · exact first.apart newer ((second.ids used).resolve_right new)
        ((second.ids used').resolve_right new)

end Renumbers

namespace WellFormed

private theorem renumbers (wf : s.WellFormed) (fresh : EntityKind → Option EntityId)
    (le : s.lastId ≤ t.lastId)
    (numbers : ∀ id label, t.repository.Numbers id label →
      s.repository.Numbers id label ∨ fresh label.kind = some id)
    (behind : ∀ kind id, fresh kind = some id → s.lastId < id)
    (apart : ∀ kind other id, fresh kind = some id → fresh other = some id → kind = other) :
    Renumbers s t := by
  refine ⟨le, fun numbered => (numbers _ _ numbered).imp_right (behind _ _), ?_⟩
  intro kind other id newer used used'
  have given : ∀ k, id ∈ t.repository.ids k → fresh k = some id := by
    intro k member
    obtain ⟨label, rfl, numbered⟩ := Repository.mem_ids_iff.mp member
    refine (numbers id label numbered).resolve_left fun before => ?_
    have old := wf.given.ids (Repository.mem_ids_iff.mpr ⟨label, rfl, before⟩)
    exact Nat.not_lt.mpr old newer
  exact apart kind other id (given kind used) (given other used')

private theorem renumbers_of_numbers (wf : s.WellFormed) (le : s.lastId ≤ t.lastId)
    (kept : ∀ id label, t.repository.Numbers id label → s.repository.Numbers id label) :
    Renumbers s t :=
  wf.renumbers (fun _ => none) le (fun id label numbered => .inl (kept id label numbered)) (by simp)
    (by simp)

private theorem renumbers_refl (wf : s.WellFormed) : Renumbers s s :=
  wf.renumbers_of_numbers (Nat.le_refl _) fun _ _ numbered => numbered

private theorem renumbers_edit (wf : s.WellFormed) (step : Edit scope s t) : Renumbers s t := by
  cases step with
  | putVocabulary name absent =>
    refine wf.renumbers_of_numbers (Nat.le_refl _) ?_
    intro id label numbered
    cases label <;> exact numbered
  | clearVocabulary within overwrites =>
    rw [wf.clearVocabulary_eq]
    refine wf.renumbers_of_numbers (Nat.le_refl _) ?_
    intro id label numbered
    cases label with
    | tag => exact numbered.imp fun parents member => (List.mem_filter.mp member).1
    | node => exact numbered
    | file => exact numbered
    | path => exact numbered
  | putTag within named housed =>
    rw [wf.putTag_eq]
    refine wf.renumbers (fun kind => if kind = .tag then some (s.lastId + 1) else none)
      (Nat.le_succ _) ?_ (by grind) (by grind)
    intro id label numbered
    cases label with
    | tag =>
      obtain ⟨parents, member⟩ := numbered
      rcases List.mem_append.mp member with old | new
      · exact .inl ⟨parents, old⟩
      · obtain ⟨rfl, -⟩ := Prod.mk.inj (List.mem_singleton.mp new)
        exact .inr rfl
    | node => exact .inl numbered
    | file => exact .inl numbered
    | path => exact .inl numbered
  | setParents within found names =>
    refine wf.renumbers_of_numbers (Nat.le_refl _) ?_
    intro id label numbered
    cases label with
    | tag =>
      obtain ⟨parents, member⟩ := numbered
      obtain ⟨old, held, same⟩ := List.mem_map.mp member
      refine ⟨old.2.parents, ?_⟩
      split at same <;> cases same <;> exact held
    | node => exact numbered
    | file => exact numbered
    | path => exact numbered
  | putFile absent =>
    rw [wf.putFile_eq]
    refine wf.renumbers (fun kind => if kind = .file then some (s.lastId + 1) else none)
      (Nat.le_succ _) ?_ (by grind) (by grind)
    intro id label numbered
    cases label with
    | tag => exact .inl numbered
    | node => exact .inl numbered
    | file =>
      rcases List.mem_append.mp numbered with old | new
      · exact .inl old
      · obtain ⟨rfl, -⟩ := Prod.mk.inj (List.mem_singleton.mp new)
        exact .inr rfl
    | path => exact .inl numbered
  | dropNode within overwrites found =>
    rw [wf.dropNode_eq]
    refine wf.renumbers_of_numbers (Nat.le_refl _) ?_
    intro id label numbered
    cases label with
    | tag => exact numbered
    | node => exact numbered.imp fun fields member => (List.mem_filter.mp member).1
    | file => exact numbered
    | path => exact (List.mem_filter.mp numbered).1
  | @putNode n values within titled absent ascending =>
    rw [wf.putNode_eq]
    refine wf.renumbers
      (fun kind =>
        if kind = .node then some (s.lastId + 1)
        else if kind = .path then some (s.lastId + 2) else none)
      (Nat.le_trans (Nat.le_succ _) (Nat.le_add_right _ _)) ?_ (by grind) (by grind)
    intro id label numbered
    cases label with
    | tag => exact .inl numbered
    | node =>
      obtain ⟨fields, member⟩ := numbered
      rcases List.mem_append.mp member with old | new
      · exact .inl ⟨fields, old⟩
      · obtain ⟨rfl, -⟩ := Prod.mk.inj (List.mem_singleton.mp new)
        exact .inr rfl
    | file => exact .inl numbered
    | path =>
      rcases List.mem_append.mp numbered with old | new
      · exact .inl old
      · obtain ⟨text, -, same⟩ := Option.map_eq_some_iff.mp (Option.mem_toList.mp new)
        obtain ⟨rfl, -⟩ := Prod.mk.inj same
        exact .inr rfl

private theorem renumbers_edits (wf : s.WellFormed) (steps : Edits scope s t) : Renumbers s t := by
  induction steps with
  | refl => exact wf.renumbers_refl
  | tail before step ih => exact ih.trans ((wf.edits before).renumbers_edit step)

private theorem renumbers_insertReference (wf : s.WellFormed) (w : ReferenceWrite) :
    Renumbers s (s.insertReference w) := by
  refine wf.renumbers_of_numbers (Nat.le_refl _) ?_
  intro id label numbered
  cases label with
  | tag => exact numbered
  | node =>
    obtain ⟨fields, member⟩ := numbered
    obtain ⟨old, held, same⟩ := List.mem_map.mp member
    refine ⟨old.2.fields, ?_⟩
    split at same <;> cases same <;> exact held
  | file => exact numbered
  | path => exact numbered

private theorem renumbers_insertReferences (wf : s.WellFormed) (writes : List ReferenceWrite) :
    Renumbers s (s.insertReferences writes) := by
  induction writes generalizing s with
  | nil => exact wf.renumbers_refl
  | cons w writes ih =>
    exact (wf.renumbers_insertReference w).trans (ih (wf.insertReference w))

end WellFormed

private theorem Sound.renumbers_rollback (sound : s.Sound) : Renumbers s s.rollback := by
  obtain ⟨mark, journal⟩ := sound.journal
  rw [journal.rollback_eq sound.wellFormed]
  refine sound.wellFormed.renumbers_of_numbers (Nat.le_refl _) ?_
  intro id label numbered
  cases label with
  | tag => exact numbered.imp fun parents member => (List.mem_filter.mp member).1
  | node => exact numbered.imp fun fields member => (List.mem_filter.mp member).1
  | file => exact (List.mem_filter.mp numbered).1
  | path => exact (List.mem_filter.mp numbered).1

theorem Sound.renumbers_operation (sound : s.Sound) (op : Operation) :
    Renumbers s (op.apply s) := by
  have wf := sound.wellFormed
  rcases wf.operation_cases op with steps | ⟨writes, same⟩ | same | same
  · exact wf.renumbers_edits steps
  · exact same ▸ wf.renumbers_insertReferences writes
  · exact same ▸ sound.renumbers_rollback
  · rw [same]
    refine wf.renumbers_of_numbers (Nat.le_refl _) ?_
    intro id label numbered
    cases label <;> exact numbered

private theorem Reachable.renumbers_operations (reachable : Reachable s) (ops : List Operation) :
    Renumbers s (ops.foldl Operation.apply s) := by
  induction ops generalizing s with
  | nil => exact reachable.sound.wellFormed.renumbers_refl
  | cons op ops ih =>
    exact (reachable.sound.renumbers_operation op).trans (ih (reachable.operation op))

/-- A number is of one kind: none was given out before the first operation. -/
theorem Reachable.apart (reachable : Reachable s) {kind other : EntityKind} {id : EntityId}
    (used : id ∈ s.repository.ids kind) (used' : id ∈ s.repository.ids other) : kind = other := by
  have new : ∃ overwrite contentModel, Renumbers (Store.empty overwrite contentModel) s ∧
      ∀ k, id ∉ (Store.empty overwrite contentModel).repository.ids k := by
    clear used used'
    induction reachable with
    | empty overwrite contentModel =>
      have wf := WellFormed.empty overwrite contentModel
      refine ⟨overwrite, contentModel, wf.renumbers_refl, ?_⟩
      intro k
      cases k <;> exact List.not_mem_nil
    | operation before op ih =>
      obtain ⟨overwrite, contentModel, came, unused⟩ := ih
      exact ⟨overwrite, contentModel, came.trans (before.sound.renumbers_operation op), unused⟩
  obtain ⟨overwrite, contentModel, came, unused⟩ := new
  exact came.apart ((came.ids used).resolve_left (unused kind)) used used'

private theorem Reachable.freed (reachable : Reachable s) (ops later : List Operation)
    {kind : EntityKind} {id : EntityId} (used : id ∈ s.repository.ids kind)
    (free : id ∉ (ops.foldl Operation.apply s).repository.ids kind) (other : EntityKind) :
    id ∉ (later.foldl Operation.apply (ops.foldl Operation.apply s)).repository.ids other := by
  intro again
  have old : id ≤ s.lastId := reachable.sound.wellFormed.given.ids used
  have first := reachable.renumbers_operations ops
  have second := (reachable.operations ops).renumbers_operations later
  rcases second.ids again with kept | new
  · rcases first.ids kept with before | new
    · exact free (reachable.apart used before ▸ kept)
    · exact Nat.not_lt.mpr old new
  · exact Nat.not_lt.mpr (Nat.le_trans old first.lastId) new

private theorem WellFormed.createNode_ok_path (wf : s.WellFormed) {n : NodeRecord}
    {created : CreatedNode} (accepted : s.createNode n = (.ok created, t))
    {path : EntityId × PathAlias} (member : path ∈ t.repository.paths)
    (source : path.2.source = nodePath created.id) : created.id < path.1 := by
  obtain ⟨fields, -, wf', -, rfl, rfl⟩ := wf.createNode_ok_written accepted
  rw [wf'.putNode_eq] at member
  rcases List.mem_append.mp member with old | new
  · obtain ⟨owner, stored, same⟩ := wf'.consistent.pathsOwned path old
    have number := nodePath_inj.mp (same.symm.trans source)
    exact absurd (number ▸ wf'.given.nodes owner stored) (Nat.not_succ_le_self _)
  · obtain ⟨text, -, rfl⟩ := Option.map_eq_some_iff.mp (Option.mem_toList.mp new)
    exact Nat.lt_succ_self _

private theorem Reachable.below_of_newer (reachable : Reachable s) (ops : List Operation)
    {id : EntityId} (newer : (ops.foldl Operation.apply s).lastId < id) :
    s.repository.Below id := by
  intro kind used member
  have old : used ≤ s.lastId := reachable.sound.wellFormed.given.ids member
  have later := (reachable.renumbers_operations ops).lastId
  exact Nat.lt_of_le_of_lt (Nat.le_trans old later) newer

/-! ## Uris and paths -/

/-- No two files share a uri, and no two paths a source. -/
structure Unshared (s : Store) : Prop where
  uris : s.repository.files.Pairwise fun a b => a.2 ≠ b.2
  sources : s.repository.paths.Pairwise fun a b => a.2.source ≠ b.2.source

namespace Unshared

private theorem edit (unshared : s.Unshared) (wf : s.WellFormed) (step : Edit scope s t) :
    t.Unshared := by
  cases step with
  | putVocabulary name absent => exact { unshared with }
  | clearVocabulary within overwrites => exact { unshared with }
  | putTag within named housed => exact { unshared with }
  | setParents within found names => exact { unshared with }
  | @putFile uri absent =>
    rw [wf.putFile_eq]
    refine { unshared with uris := ?_ }
    refine List.pairwise_append.mpr ⟨unshared.uris, List.pairwise_singleton _ _, ?_⟩
    intro old held new added
    have differ : old.2 ≠ uri := by
      simpa using List.find?_eq_none.mp (Option.map_eq_none_iff.mp absent) old held
    rwa [List.mem_singleton.mp added]
  | dropNode within overwrites found =>
    rw [wf.dropNode_eq]
    exact { unshared with sources := unshared.sources.filter _ }
  | @putNode n values within titled absent ascending =>
    rw [wf.putNode_eq]
    refine { unshared with sources := ?_ }
    refine List.pairwise_append.mpr ⟨unshared.sources, ?_, ?_⟩
    · unfold aliasPaths
      cases n.pathAlias <;> simp
    · intro old held new added
      obtain ⟨owner, stored, source⟩ := wf.consistent.pathsOwned old held
      rw [source, (WellFormed.mem_aliasPaths added).2]
      exact nodePath_inj.not.mpr (Nat.ne_of_lt (Nat.lt_succ_of_le (wf.given.nodes owner stored)))

private theorem edits (unshared : s.Unshared) (wf : s.WellFormed) (steps : Edits scope s t) :
    t.Unshared := by
  induction steps with
  | refl => exact unshared
  | tail before step ih => exact ih.edit (wf.edits before) step

private theorem insertReferences (unshared : s.Unshared) (writes : List ReferenceWrite) :
    (s.insertReferences writes).Unshared := by
  induction writes generalizing s with
  | nil => exact unshared
  | cons w writes ih => exact ih ⟨unshared.uris, unshared.sources⟩

private theorem operation (unshared : s.Unshared) (sound : s.Sound) (op : Operation) :
    (op.apply s).Unshared := by
  rcases sound.wellFormed.operation_cases op with steps | ⟨writes, same⟩ | same | same
  · exact unshared.edits sound.wellFormed steps
  · exact same ▸ unshared.insertReferences writes
  · obtain ⟨mark, journal⟩ := sound.journal
    rw [same, journal.rollback_eq sound.wellFormed]
    exact ⟨unshared.uris.filter _, unshared.sources.filter _⟩
  · exact same ▸ ⟨unshared.uris, unshared.sources⟩

end Unshared

private theorem Reachable.unshared (reachable : Reachable s) : s.Unshared := by
  induction reachable with
  | empty overwrite contentModel => exact ⟨List.Pairwise.nil, List.Pairwise.nil⟩
  | operation before op ih => exact ih.operation before.sound op

/-! ## Reachable stores -/

/-- What tells the entities of a repository apart, and what links them. -/
structure Repository.Identified (r : Repository) : Prop where
  uuids : r.nodes.Pairwise fun a b => a.2.uuid ≠ b.2.uuid
  uris : r.files.Pairwise fun a b => a.2 ≠ b.2
  /-- Every path is of a stored node, and no node has two. -/
  owned : ∀ path ∈ r.paths, ∃ owner ∈ r.nodes, path.2.source = nodePath owner.1 ∧
    r.aliasOf? owner.1 = some path.2.path
  single : r.paths.Pairwise fun a b => a.2.source ≠ b.2.source
  housed : ∀ tag ∈ r.tags, Table.holds r.vocabularies tag.2.vocabularyId = true
  /-- No number is of two entities, whether of one kind or of two. -/
  once : ∀ kind, (r.ids kind).Nodup
  apart : ∀ {kind other id}, id ∈ r.ids kind → id ∈ r.ids other → kind = other

/-- In every store that operations lead to, entities can be told apart and are linked to entities
that are there. Whatever operations follow, a number that one of them freed is not given out again,
and each one that is given out, to an entity of whatever kind, is behind all that any store before
has used. A node which replaces another one like it has such a number too, and the number of its
path is behind its own. -/
theorem Reachable.identified (reachable : Reachable s) :
    s.repository.Identified ∧
      (∀ (ops later : List Operation) (kind : EntityKind), ∀ id ∈ s.repository.ids kind,
        id ∉ (ops.foldl Operation.apply s).repository.ids kind → ∀ other,
          id ∉ (later.foldl Operation.apply (ops.foldl Operation.apply s)).repository.ids other) ∧
      (∀ (ops : List Operation) (op : Operation),
        let last := ops.foldl Operation.apply s
        ∀ id label, (op.apply last).repository.Numbers id label →
          last.repository.Numbers id label ∨ s.repository.Below id) ∧
      ∀ (ops : List Operation) (n : NodeRecord) (created : CreatedNode) (t : Store),
        (ops.foldl Operation.apply s).createNode n = (.ok created, t) →
          t.repository.Numbers created.id (.node n.uuid n.title n.bundle) ∧
            s.repository.Below created.id ∧
              ∀ path ∈ t.repository.paths, path.2.source = nodePath created.id →
                created.id < path.1 ∧ s.repository.Below path.1 := by
  have consistent := reachable.sound.wellFormed.consistent
  have unshared := reachable.unshared
  refine ⟨?_, ?_, ?_, ?_⟩
  · exact
      { uuids := consistent.uuidsDistinct
        uris := unshared.uris
        owned := fun path member => by
          obtain ⟨owner, stored, source⟩ := consistent.pathsOwned path member
          exact ⟨owner, stored, source, Repository.aliasOf?_eq unshared.sources member source⟩
        single := unshared.sources
        housed := consistent.tagsHoused
        once := consistent.ids_nodup
        apart := reachable.apart }
  · exact fun ops later kind id used free => reachable.freed ops later used free
  · intro ops op last id label numbered
    have renumbers := (reachable.operations ops).sound.renumbers_operation op
    exact (renumbers.numbers numbered).imp_right (reachable.below_of_newer ops)
  · intro ops n created t accepted
    have wf := (reachable.operations ops).sound.wellFormed
    obtain ⟨newer, -, values, nodes⟩ := wf.createNode_ok accepted
    have stored : t.repository.Numbers created.id (.node n.uuid n.title n.bundle) :=
      ⟨values, nodes ▸ List.mem_append_right _ (List.mem_singleton_self _)⟩
    refine ⟨stored, reachable.below_of_newer ops newer, ?_⟩
    intro path member source
    have behind := wf.createNode_ok_path accepted member source
    exact ⟨behind, reachable.below_of_newer ops (Nat.lt_trans newer behind)⟩

/-- A page with another path and a picture. -/
def illustratedPage : NodeRecord :=
  ⟨"First", "page", some "first", "first",
    [⟨"picture", .references [.file "first.png"], some .file⟩]⟩

theorem Reachable.identified_illustratedPage :
    let replace : Operation := .createNode illustratedPage
    let s := replace.apply (Store.empty true [])
    s.repository.Identified ∧ s.repository.ids .file = [1] ∧ s.repository.ids .node = [2] ∧
      s.repository.ids .path = [3] ∧
      (replace.apply s).repository.ids .file = [1] ∧
      (replace.apply s).repository.ids .node = [4] ∧
      (replace.apply s).repository.ids .path = [5] ∧
      s.repository.Below 4 ∧ s.repository.Below 5 ∧
      ∀ (later : List Operation) (kind : EntityKind),
        2 ∉ (later.foldl Operation.apply (replace.apply s)).repository.ids kind ∧
          3 ∉ (later.foldl Operation.apply (replace.apply s)).repository.ids kind := by
  intro replace s
  have nodes : s.repository.ids .node = [2] := by decide +kernel
  have paths : s.repository.ids .path = [3] := by decide +kernel
  have node : (replace.apply s).repository.ids .node = [4] := by decide +kernel
  have path : (replace.apply s).repository.ids .path = [5] := by decide +kernel
  have reachable : Reachable s := (Reachable.empty true []).operation replace
  obtain ⟨identified, freed, -, created⟩ := reachable.identified
  have accepted : s.createNode illustratedPage = (.ok ⟨4, []⟩, replace.apply s) :=
    Prod.ext rfl rfl
  obtain ⟨-, below, behind⟩ := created [] illustratedPage ⟨4, []⟩ (replace.apply s) accepted
  have placed : (5, ⟨nodePath 4, "/first"⟩) ∈ (replace.apply s).repository.paths := by
    decide +kernel
  refine ⟨identified, by decide +kernel, nodes, paths, by decide +kernel, node, path, below,
    (behind _ placed rfl).2, fun later kind => ⟨?_, ?_⟩⟩
  · refine freed [replace] later .node 2 (nodes ▸ List.mem_singleton_self 2) ?_ kind
    have free : 2 ∉ (replace.apply s).repository.ids .node := by
      rw [node]
      decide
    exact free
  · refine freed [replace] later .path 3 (paths ▸ List.mem_singleton_self 3) ?_ kind
    have free : 3 ∉ (replace.apply s).repository.ids .path := by
      rw [path]
      decide
    exact free

end ContentImport.Store
