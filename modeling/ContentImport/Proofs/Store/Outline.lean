import ContentImport.Proofs.Store.Identity
import ContentImport.Proofs.Store.Reference

/-!
What operations cannot change. The outline of a repository leaves out what is written to entities
that are there already: the parents of tags and the fields of nodes. Operations that a rollback ends
add nothing to the outline that they began with, and without overwriting they restore it.
-/

set_option autoImplicit false
set_option relaxedAutoImplicit false

namespace ContentImport.Store

namespace Repository

/-- A repository without the parents of its tags and the fields of its nodes. -/
def outline (r : Repository) : Repository :=
  { r with
    tags := r.tags.map fun e => (e.1, { e.2 with parents := [] })
    nodes := r.nodes.map fun e => (e.1, { e.2 with fields := [] }) }

/-- A repository whose entities are all in another one. -/
structure PartOf (r whole : Repository) : Prop where
  vocabularies : r.vocabularies.Sublist whole.vocabularies
  tags : r.tags.Sublist whole.tags
  nodes : r.nodes.Sublist whole.nodes
  files : r.files.Sublist whole.files
  paths : r.paths.Sublist whole.paths

private theorem PartOf.refl (r : Repository) : r.PartOf r :=
  ⟨.refl _, .refl _, .refl _, .refl _, .refl _⟩

private theorem PartOf.trans {r r' r'' : Repository} (first : r.PartOf r')
    (second : r'.PartOf r'') :
    r.PartOf r'' where
  vocabularies := first.vocabularies.trans second.vocabularies
  tags := first.tags.trans second.tags
  nodes := first.nodes.trans second.nodes
  files := first.files.trans second.files
  paths := first.paths.trans second.paths

private theorem SameButParents.outline {r r' : Repository} (same : r.SameButParents r') :
    r'.outline = r.outline := by
  obtain ⟨others, named⟩ := same
  have tags : (r'.tags.map fun e => (e.1, { e.2 with parents := [] })) =
      r.tags.map fun e => (e.1, { e.2 with parents := [] }) := by
    have bare := congrArg (List.map fun t => (t.1, (⟨t.2.1, t.2.2, []⟩ : StoredTag))) named
    simpa only [List.map_map, Function.comp_def] using bare
  unfold Repository.outline
  rw [tags, others]

end Repository

variable {scope : Scope} {s t : Store} {mark : EntityId}

private theorem Journal.outline_edit (journal : Journal mark s) (wf : s.WellFormed)
    (step : Edit scope s t) : (t.older mark).outline.PartOf (s.older mark).outline := by
  have same := Repository.PartOf.refl (s.older mark).outline
  rcases journal.older_edit wf step with kept | ⟨-, ⟨id, rfl⟩ | ⟨id, rfl⟩⟩
  · rw [kept.outline]
    exact same
  · rw [wf.clearVocabulary_eq]
    exact { same with tags := (List.filter_sublist.filter _).map _ }
  · rw [wf.dropNode_eq]
    exact { same with
      nodes := (List.filter_sublist.filter _).map _
      paths := List.filter_sublist.filter _ }

private theorem Journal.outline_edits (journal : Journal mark s) (wf : s.WellFormed)
    (steps : Edits scope s t) : (t.older mark).outline.PartOf (s.older mark).outline := by
  induction steps with
  | refl => exact .refl _
  | tail before step ih =>
    have entered := journal.edits wf before
    exact (entered.outline_edit (wf.edits before) step).trans ih

theorem Journal.older_tag (journal : Journal mark s) (wf : s.WellFormed) (steps : Edits scope s t)
    {e : EntityId × StoredTag} (stored : e ∈ t.repository.tags) (old : e.1 ≤ mark) :
    ∃ tag, (e.1, tag) ∈ s.repository.tags ∧ tag.vocabularyId = e.2.vocabularyId := by
  have left : (e.1, { e.2 with parents := [] }) ∈ (t.older mark).outline.tags :=
    List.mem_map_of_mem (List.mem_filter.mpr ⟨stored, decide_eq_true old⟩)
  have part := journal.outline_edits wf steps
  obtain ⟨before, member, same⟩ := List.mem_map.mp (part.tags.subset left)
  obtain ⟨key, value⟩ := Prod.mk.inj same
  exact ⟨before.2, key ▸ (List.mem_filter.mp member).1, (StoredTag.mk.inj value).1⟩

theorem Journal.older_node (journal : Journal mark s) (wf : s.WellFormed) (steps : Edits scope s t)
    {e : EntityId × StoredNode} (stored : e ∈ t.repository.nodes) (old : e.1 ≤ mark) :
    ∃ node, (e.1, node) ∈ s.repository.nodes ∧ node.uuid = e.2.uuid := by
  have left : (e.1, { e.2 with fields := [] }) ∈ (t.older mark).outline.nodes :=
    List.mem_map_of_mem (List.mem_filter.mpr ⟨stored, decide_eq_true old⟩)
  have part := journal.outline_edits wf steps
  obtain ⟨before, member, same⟩ := List.mem_map.mp (part.nodes.subset left)
  obtain ⟨key, value⟩ := Prod.mk.inj same
  exact ⟨before.2, key ▸ (List.mem_filter.mp member).1, (StoredNode.mk.inj value).1⟩

private theorem outline_insertReferences (s : Store) (writes : List ReferenceWrite) :
    ((s.insertReferences writes).older mark).outline = (s.older mark).outline := by
  rw [insertReferences_eq]
  simp only [older, Repository.upTo, Repository.outline, List.filter_map, List.map_map,
    Function.comp_def]

/-- What operations of one run leave of the outline of a store. -/
structure Retains (mark : EntityId) (s t : Store) : Prop where
  wellFormed : t.WellFormed
  journal : Journal mark t
  overwrite : t.overwrite = s.overwrite
  part : (t.older mark).outline.PartOf (s.older mark).outline
  whole : s.overwrite = false → (t.older mark).outline = (s.older mark).outline

namespace Retains

private theorem operation (retains : Retains mark s t) {op : Operation}
    (within : op.endsRun = false) : Retains mark s (op.apply t) := by
  have wf := retains.wellFormed
  have journal := retains.journal
  rcases wf.operation_within within with steps | ⟨writes, same⟩
  · refine ⟨wf.edits steps, journal.edits wf steps, ?_, ?_, ?_⟩
    · rw [(wf.grows steps).overwrite, retains.overwrite]
    · exact (journal.outline_edits wf steps).trans retains.part
    · intro keeps
      have still : t.overwrite = false := by rw [retains.overwrite, keeps]
      rw [(journal.sameButParents wf still steps).outline, retains.whole keeps]
  · rw [same]
    refine ⟨wf.insertReferences writes, journal.insertReferences writes, ?_, ?_, ?_⟩
    · rw [insertReferences_eq, ← retains.overwrite]
    · rw [outline_insertReferences]
      exact retains.part
    · rw [outline_insertReferences]
      exact retains.whole

private theorem operations (retains : Retains mark s t) {ops : List Operation}
    (within : ∀ op ∈ ops, op.endsRun = false) :
    Retains mark s (ops.foldl Operation.apply t) := by
  induction ops generalizing t with
  | nil => exact retains
  | cons op ops ih =>
    obtain ⟨first, others⟩ := List.forall_mem_cons.mp within
    exact ih (retains.operation first) others

end Retains

/-- Of a run that is rolled back, nothing is left: every entity is one that was there when the run
began, with the same vocabulary and name, uuid, title and content type, uri or paths. Without
overwriting, every one that was there is left. -/
theorem Reachable.rollback_outline (reachable : Reachable s) (settled : s.ledger = .empty)
    {ops : List Operation} (within : ∀ op ∈ ops, op.endsRun = false) :
    let rolled := (ops.foldl Operation.apply s).rollback
    rolled.repository.outline.PartOf s.repository.outline ∧
      (s.overwrite = false → rolled.repository.outline = s.repository.outline) := by
  intro rolled
  have wf := reachable.sound.wellFormed
  have journal := wf.journal settled
  have start : Retains s.lastId s s := ⟨wf, journal, rfl, .refl _, fun _ => rfl⟩
  have retains := start.operations within
  have left : rolled.repository = (ops.foldl Operation.apply s).older s.lastId :=
    congrArg repository (retains.journal.rollback_eq retains.wellFormed)
  have begun : s.older s.lastId = s.repository := wf.older_eq settled
  rw [left, ← begun]
  exact ⟨retains.part, retains.whole⟩

/-- A vocabulary with a tag, and a page that a run has committed. -/
def illustrated (overwrite : Bool) : Store :=
  [Operation.createVocabulary "color" "Color", .createTag "color" "Red",
    .createNode illustratedPage, .commit].foldl Operation.apply (.empty overwrite [])

/-- A run that adds a tag and puts an older one below it, and that writes the page anew. -/
def revision : List Operation :=
  [.createVocabulary "color" "Color", .createTag "color" "Warm",
    .setTagParents "color" [⟨"Red", ["Warm"]⟩],
    .createNode ⟨"Second", "page", some "first", "first", []⟩,
    .insertReferences [⟨3, "next", .node, [some 3]⟩]]

theorem Reachable.rollback_outline_revision :
    (illustrated false).ledger = .empty ∧ (∀ op ∈ revision, op.endsRun = false) ∧
      (revision.foldl Operation.apply (illustrated false)).rollback.repository.outline =
        (illustrated false).repository.outline ∧
      (revision.foldl Operation.apply (illustrated true)).rollback.repository.outline.PartOf
        (illustrated true).repository.outline := by
  have settled : ∀ overwrite, (illustrated overwrite).ledger = .empty := by decide
  have within : ∀ op ∈ revision, op.endsRun = false := by decide
  have reachable : ∀ overwrite, Reachable (illustrated overwrite) :=
    fun overwrite => (Reachable.empty overwrite []).operations _
  have kept := (reachable false).rollback_outline (settled false) within
  have fewer := (reachable true).rollback_outline (settled true) within
  exact ⟨settled false, within, kept.2 rfl, fewer.1⟩

end ContentImport.Store
