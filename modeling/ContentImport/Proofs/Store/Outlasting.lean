import ContentImport.Proofs.Store.Outline
import ContentImport.Proofs.Store.Outside

/-!
What outlasts a run. Overwriting replaces tags and nodes within a scope, and everything else keeps
its number: a number that led to an entity leads to it afterwards unless the entity was replaced. The
parents of tags cannot be lost, since a vocabulary is cleared as a whole.
-/

set_option autoImplicit false
set_option relaxedAutoImplicit false

namespace ContentImport.Store

namespace Repository

variable {r : Repository}

def HasTag (r : Repository) (id : EntityId) (vocabularyId : String) : Prop :=
  ∃ tag, (id, tag) ∈ r.tags ∧ tag.vocabularyId = vocabularyId

/-- A repository in which the parents of tags are stored tags of the same vocabulary. -/
def Linked (r : Repository) : Prop :=
  ∀ e ∈ r.tags, ∀ parent ∈ e.2.parents, r.HasTag parent e.2.vocabularyId

/-- A number is that of a stored node or tag. -/
def Leads (r : Repository) (id : EntityId) : Prop :=
  id ∈ r.ids .node ∨ id ∈ r.ids .tag

/-- A number is that of a node or a tag within a scope. -/
def Within (r : Repository) (scope : Scope) (id : EntityId) : Prop :=
  (∃ node, (id, node) ∈ r.nodes ∧ scope.uuids node.uuid = true) ∨
    ∃ vocabularyId, r.HasTag id vocabularyId ∧ scope.vocabularies vocabularyId = true

theorem leads_of_node {id : EntityId} {node : StoredNode} (stored : (id, node) ∈ r.nodes) :
    r.Leads id :=
  .inl (List.mem_map_of_mem stored)

theorem HasTag.leads {id : EntityId} {vocabularyId : String} (stored : r.HasTag id vocabularyId) :
    r.Leads id := by
  obtain ⟨tag, member, -⟩ := stored
  exact .inr (List.mem_map_of_mem member)

private theorem Leads.cases {id : EntityId} (leads : r.Leads id) :
    (∃ node, (id, node) ∈ r.nodes) ∨ ∃ vocabularyId, r.HasTag id vocabularyId := by
  rcases leads with node | tag
  · obtain ⟨e, member, rfl⟩ := List.mem_map.mp node
    exact .inl ⟨e.2, member⟩
  · obtain ⟨e, member, rfl⟩ := List.mem_map.mp tag
    exact .inr ⟨_, e.2, member, rfl⟩

theorem hasTag_of_tagId? {vocabularyId name : String} {id : EntityId}
    (found : r.tagId? vocabularyId name = some id) : r.HasTag id vocabularyId := by
  obtain ⟨tag, stored, vocabulary, -⟩ := mem_of_tagId? found
  exact ⟨tag, stored, vocabulary⟩

end Repository

@[simp] theorem leads_insertReferences (s : Store) (writes : List ReferenceWrite)
    (id : EntityId) :
    (s.insertReferences writes).repository.Leads id ↔ s.repository.Leads id := by
  simp [Repository.Leads, Repository.ids, insertReferences_nodes, Function.comp_def]

variable {scope : Scope} {s t u : Store} {mark : EntityId}

/-! ## Parents -/

private theorem hasTag_setParents {id : EntityId} {parents : List EntityId} {other : EntityId}
    {vocabularyId : String} (stored : s.repository.HasTag other vocabularyId) :
    (s.setParents id parents).repository.HasTag other vocabularyId := by
  obtain ⟨tag, member, vocabulary⟩ := stored
  have kept := List.mem_map_of_mem (f := fun e : EntityId × StoredTag =>
    if e.1 = id then (e.1, { e.2 with parents }) else e) member
  by_cases same : other = id
  · rw [if_pos same] at kept
    exact ⟨_, kept, vocabulary⟩
  · rw [if_neg same] at kept
    exact ⟨_, kept, vocabulary⟩

private theorem WellFormed.linked_edit (wf : s.WellFormed) (linked : s.repository.Linked)
    (step : Edit scope s t) : t.repository.Linked := by
  -- Edits keep the parents of tags: a vocabulary loses all its tags or none.
  cases step with
  | putVocabulary name absent => exact linked
  | @clearVocabulary id within overwrites =>
    rw [wf.clearVocabulary_eq]
    intro e member parent listed
    obtain ⟨held, other⟩ := List.mem_filter.mp member
    obtain ⟨tag, stored, same⟩ := linked e held parent listed
    refine ⟨tag, List.mem_filter.mpr ⟨stored, ?_⟩, same⟩
    rwa [← same] at other
  | putTag within named housed =>
    rw [wf.putTag_eq]
    intro e member parent listed
    rcases List.mem_append.mp member with old | new
    · obtain ⟨tag, stored, same⟩ := linked e old parent listed
      exact ⟨tag, List.mem_append_left _ stored, same⟩
    · rw [List.mem_singleton.mp new] at listed
      cases listed
  | @setParents vocabularyId name id within found names =>
    intro e member parent listed
    refine hasTag_setParents ?_
    obtain ⟨old, held, rfl⟩ := List.mem_map.mp member
    by_cases same : old.1 = id
    · simp only [if_pos same] at listed ⊢
      obtain ⟨parentName, -, hit⟩ := List.mem_filterMap.mp listed
      obtain ⟨tag, stored, vocabulary, -⟩ := Repository.mem_of_tagId? found
      rw [wf.consistent.tagsAscending.eq_of_mem held stored same, vocabulary]
      exact Repository.hasTag_of_tagId? hit
    · simp only [if_neg same] at listed ⊢
      exact linked old held parent listed
  | putFile absent => exact linked
  | dropNode within overwrites found => exact linked
  | putNode within titled absent ascending =>
    rw [wf.putNode_eq]
    exact linked

theorem WellFormed.linked_edits (wf : s.WellFormed) (linked : s.repository.Linked)
    (steps : Edits scope s t) : t.repository.Linked := by
  induction steps with
  | refl => exact linked
  | tail before step ih => exact (wf.edits before).linked_edit ih step

/-! ## Scopes -/

/-- What is in one of two scopes. -/
def Scope.or (a b : Scope) : Scope :=
  ⟨fun id => a.vocabularies id || b.vocabularies id, fun uuid => a.uuids uuid || b.uuids uuid⟩

/-- A scope where overwriting is on, and nothing where it is off. -/
def Scope.replacing (scope : Scope) (overwrite : Bool) : Scope :=
  if overwrite then scope else .nothing

/-- A store that came from another one by replacing what is within a scope. The other nodes and tags
keep their numbers, the nodes with their fields. -/
structure Outlasts (replaced : Scope) (s t : Store) : Prop where
  lastId : s.lastId ≤ t.lastId
  nodes : ∀ e : EntityId × StoredNode, e.1 ≤ s.lastId →
    (e ∈ t.repository.nodes ↔ e ∈ s.repository.nodes ∧ replaced.uuids e.2.uuid = false)
  tags : ∀ {id vocabularyId}, id ≤ s.lastId →
    (t.repository.HasTag id vocabularyId ↔
      s.repository.HasTag id vocabularyId ∧ replaced.vocabularies vocabularyId = false)

namespace Outlasts

variable {replaced more : Scope}

theorem refl (s : Store) : Outlasts .nothing s s :=
  ⟨Nat.le_refl _, by simp [Scope.nothing], by simp [Scope.nothing]⟩

theorem trans (first : Outlasts replaced s t) (second : Outlasts more t u) :
    Outlasts (replaced.or more) s u := by
  refine ⟨Nat.le_trans first.lastId second.lastId, ?_, ?_⟩
  · intro e old
    rw [second.nodes e (Nat.le_trans old first.lastId), first.nodes e old, and_assoc]
    simp [Scope.or]
  · intro id vocabularyId old
    rw [second.tags (Nat.le_trans old first.lastId), first.tags old, and_assoc]
    simp [Scope.or]

theorem insertReferences (outlasts : Outlasts replaced s t) {writes : List ReferenceWrite}
    (behind : ∀ w ∈ writes, s.lastId < w.node) :
    Outlasts replaced s (t.insertReferences writes) := by
  have others : ∀ e : EntityId × StoredNode, e.1 ≤ s.lastId →
      (e.1, { e.2 with fields := writtenFields writes e.1 e.2.fields }) = e := by
    intro e old
    have ne : ∀ w ∈ writes, w.node ≠ e.1 :=
      fun w member => Nat.ne_of_gt (Nat.lt_of_le_of_lt old (behind w member))
    rw [writtenFields_of_forall_ne ne]
  refine ⟨?_, ?_, ?_⟩
  · rw [insertReferences_eq]
    exact outlasts.lastId
  · intro e old
    rw [← outlasts.nodes e old, insertReferences_nodes, List.mem_map]
    constructor
    · rintro ⟨e', member, rfl⟩
      rwa [others e' old]
    · exact fun member => ⟨e, member, others e old⟩
  · intro id vocabularyId old
    rw [← outlasts.tags old, Repository.HasTag, insertReferences_tags, Repository.HasTag]

theorem leads_iff (outlasts : Outlasts replaced s t) (reachable : Reachable s) {id : EntityId}
    (leads : s.repository.Leads id) :
    t.repository.Leads id ↔ ¬ s.repository.Within replaced id := by
  have wf := reachable.sound.wellFormed
  have old : id ≤ s.lastId := by
    rcases leads with node | tag
    · exact wf.given.ids node
    · exact wf.given.ids tag
  have apart : ∀ {node vocabularyId}, (id, node) ∈ s.repository.nodes →
      ¬ s.repository.HasTag id vocabularyId := by
    rintro node vocabularyId stored ⟨tag, member, -⟩
    have kinds : EntityKind.node = .tag :=
      reachable.apart (List.mem_map_of_mem stored) (List.mem_map_of_mem member)
    cases kinds
  constructor
  · intro still within
    rcases still.cases with ⟨node, stored⟩ | ⟨vocabularyId, stored⟩
    · obtain ⟨before, kept⟩ := (outlasts.nodes _ old).mp stored
      rcases within with ⟨other, there, replaces⟩ | ⟨vocabularyId, there, -⟩
      · have same := wf.consistent.nodesAscending.eq_of_mem before there rfl
        rw [(Prod.mk.inj same).2, replaces] at kept
        cases kept
      · exact apart before there
    · obtain ⟨⟨tag, before, vocabulary⟩, kept⟩ := (outlasts.tags old).mp stored
      rcases within with ⟨node, there, -⟩ | ⟨_, ⟨tag', there, rfl⟩, replaces⟩
      · exact apart there ⟨tag, before, rfl⟩
      · have same := wf.consistent.tagsAscending.eq_of_mem before there rfl
        rw [← vocabulary, (Prod.mk.inj same).2, replaces] at kept
        cases kept
  · intro outside
    rcases leads.cases with ⟨node, stored⟩ | ⟨vocabularyId, stored⟩
    · refine Repository.leads_of_node ((outlasts.nodes (id, node) old).mpr ⟨stored, ?_⟩)
      exact Bool.eq_false_iff.mpr fun replaces => outside (.inl ⟨node, stored, replaces⟩)
    · refine ((outlasts.tags old).mpr ⟨stored, ?_⟩).leads
      exact Bool.eq_false_iff.mpr fun replaces => outside (.inr ⟨_, stored, replaces⟩)

end Outlasts

/-! ## Edits -/

private theorem hasTag_iff_mem_map {r : Repository} {id : EntityId} {vocabularyId : String} :
    r.HasTag id vocabularyId ↔ ∃ name, (id, vocabularyId, name) ∈
      r.tags.map fun e => (e.1, e.2.vocabularyId, e.2.name) := by
  constructor
  · rintro ⟨tag, stored, rfl⟩
    exact ⟨tag.name, List.mem_map.mpr ⟨_, stored, rfl⟩⟩
  · rintro ⟨name, listed⟩
    obtain ⟨e, stored, same⟩ := List.mem_map.mp listed
    obtain ⟨rfl, tag⟩ := Prod.mk.inj same
    exact ⟨e.2, stored, (Prod.mk.inj tag).1⟩

theorem WellFormed.outlasts_keeping (wf : s.WellFormed) (settled : s.ledger = .empty)
    (keeps : s.overwrite = false) (steps : Edits scope s t) : Outlasts .nothing s t := by
  have same := (wf.journal settled).sameButParents wf keeps steps
  rw [wf.older_eq settled] at same
  obtain ⟨others, named⟩ := same
  have nodes : t.repository.nodes.filter (·.1 ≤ s.lastId) = s.repository.nodes :=
    congrArg Repository.nodes others
  refine ⟨(wf.grows steps).lastId, ?_, ?_⟩
  · intro e old
    rw [← nodes, List.mem_filter]
    simp [old, Scope.nothing]
  · intro id vocabularyId old
    have older : t.repository.HasTag id vocabularyId ↔
        (t.older s.lastId).HasTag id vocabularyId := by
      simp [Repository.HasTag, Repository.upTo, old]
    rw [older, hasTag_iff_mem_map, named, ← hasTag_iff_mem_map]
    simp [Scope.nothing]

/-- With overwriting, all that is outside a scope outlasts edits within it, provided that nothing is
left of what was within it. -/
theorem WellFormed.outlasts_replacing (wf : s.WellFormed) (steps : Edits scope s t)
    (nodes : ∀ e ∈ t.repository.nodes, e.1 ≤ s.lastId → scope.uuids e.2.uuid = false)
    (tags : ∀ e ∈ t.repository.tags, e.1 ≤ s.lastId →
      scope.vocabularies e.2.vocabularyId = false) : Outlasts scope s t := by
  have same := wf.outside_edits steps
  refine ⟨(wf.grows steps).lastId, ?_, ?_⟩
  · intro e old
    have outside : ∀ r : Repository, e ∈ r.nodesOutside scope ↔
        e ∈ r.nodes ∧ scope.uuids e.2.uuid = false := by simp [Repository.nodesOutside]
    rw [← outside, ← same.nodes, outside]
    exact ⟨fun stored => ⟨stored, nodes e stored old⟩, And.left⟩
  · intro id vocabularyId old
    have outside : ∀ r : Repository, (∃ tag, (id, tag) ∈ r.tagsOutside scope ∧
        tag.vocabularyId = vocabularyId) ↔
          r.HasTag id vocabularyId ∧ scope.vocabularies vocabularyId = false := by
      intro r
      simp only [Repository.tagsOutside, Repository.HasTag, List.mem_filter, Bool.not_eq_true']
      constructor
      · rintro ⟨tag, ⟨stored, other⟩, rfl⟩
        exact ⟨⟨tag, stored, rfl⟩, other⟩
      · rintro ⟨⟨tag, stored, rfl⟩, other⟩
        exact ⟨tag, ⟨stored, other⟩, rfl⟩
    rw [← outside, ← same.tags, outside]
    refine ⟨?_, And.left⟩
    rintro ⟨tag, stored, rfl⟩
    exact ⟨⟨tag, stored, rfl⟩, tags _ stored old⟩

end ContentImport.Store
