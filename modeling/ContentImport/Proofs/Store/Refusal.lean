import ContentImport.Proofs.Store.Operation
import ContentImport.Store.Import

/-!
Refused nodes. A node without a title and a second node of a uuid are refused before anything is
changed. The content type is looked at last: a record that an overwriting store refuses for it has
lost the node of its uuid by then, and a run that goes on without the record goes on without the
node.
-/

set_option autoImplicit false
set_option relaxedAutoImplicit false

namespace ContentImport.Store

variable {s t : Store}

private theorem bundleFields_eq_error_iff {bundle : String} {e : StoreError} :
    s.bundleFields bundle = .error e ↔
      e = .unknownBundle bundle ∧ s.contentModel ≠ [] ∧
        Table.get? s.contentModel bundle = none := by
  unfold bundleFields
  by_cases free : s.contentModel = []
  · simp [free]
  · have modelled : s.contentModel.isEmpty = false := by simpa using free
    cases fields : Table.get? s.contentModel bundle <;>
      simp [modelled, free, eq_comm]

/-- Whether a record is refused for its content type when the node of its uuid is deleted
already. -/
structure Loses (s : Store) (n : NodeRecord) : Prop where
  titled : n.title ≠ ""
  overwrites : s.overwrite = true
  stored : (s.repository.nodeByUuid? n.uuid).isSome = true
  modelled : s.contentModel ≠ []
  unknown : Table.get? s.contentModel n.bundle = none

private theorem Loses.createNode_eq {n : NodeRecord} (loses : s.Loses n) :
    s.createNode n = (.error (.unknownBundle n.bundle), s.discard n.uuid) := by
  have unknown : s.bundleFields n.bundle = .error (.unknownBundle n.bundle) :=
    bundleFields_eq_error_iff.mpr ⟨rfl, loses.modelled, loses.unknown⟩
  have allowed : ((s.repository.nodeByUuid? n.uuid).isSome && !s.overwrite) = false := by
    rw [loses.overwrites, Bool.not_true, Bool.and_false]
  rw [Store.createNode_eq, if_neg loses.titled, allowed, unknown]
  rfl

/-- Any other record that is refused leaves the store as it is. -/
theorem createNode_error_eq {n : NodeRecord} {e : StoreError} (keeps : ¬ s.Loses n)
    (refused : s.createNode n = (.error e, t)) : t = s := by
  rw [createNode_eq] at refused
  split at refused
  · exact (Prod.mk.inj refused).2.symm
  · next titled =>
    split at refused
    · exact (Prod.mk.inj refused).2.symm
    · next allowed =>
      cases known : s.bundleFields n.bundle with
      | ok accepted =>
        rw [known] at refused
        cases refused
      | error fault =>
        rw [known] at refused
        obtain ⟨-, modelled, unknown⟩ := bundleFields_eq_error_iff.mp known
        have absent : s.repository.nodeByUuid? n.uuid = none := by
          by_contra stored
          have present := Option.isSome_iff_ne_none.mpr stored
          refine keeps ⟨titled, ?_, present, modelled, unknown⟩
          simpa [present] using allowed
        have same : s.discard n.uuid = s := by
          rw [discard, absent]
        exact (Prod.mk.inj refused).2.symm.trans same

/-- A refusal leaves repository and ledger as they are, except where it loses a node. Then that
node, its paths and their entries in the ledger are gone, and nothing else. A run goes on with what
is left unless the refusal ends it. -/
theorem Reachable.createNode_refused (reachable : Reachable s) {n : NodeRecord} {e : StoreError}
    (refused : s.createNode n = (.error e, t)) :
    (t.repository = s.repository ∧ t.ledger = s.ledger ↔ ¬ s.Loses n) ∧
      (¬ s.Loses n → t = s) ∧
      (s.Loses n → e = .unknownBundle n.bundle ∧
        ∃ id node, s.repository.nodeByUuid? n.uuid = some (id, node) ∧
          t.repository.nodeByUuid? n.uuid = none ∧
          t = { s with
            repository :=
              { s.repository with
                nodes := s.repository.nodes.filter fun e => e.1 ≠ id
                paths := s.repository.paths.filter fun e => e.2.source ≠ nodePath id }
            ledger := s.ledger.forgetNode id (s.repository.pathsOf id) }) ∧
      ∀ pending warnings, Progress.storeNode ⟨s, pending, warnings⟩ n =
        if e.isFatal then (some e, ⟨t, pending, warnings⟩)
        else (none, ⟨t, pending, warnings.warn e.message⟩) := by
  have wf := reachable.sound.wellFormed
  have lost : s.Loses n → e = .unknownBundle n.bundle ∧ t = s.discard n.uuid := by
    intro loses
    obtain ⟨first, second⟩ := Prod.mk.inj (refused.symm.trans loses.createNode_eq)
    exact ⟨Except.error.inj first, second⟩
  refine ⟨⟨?_, ?_⟩, fun keeps => createNode_error_eq keeps refused, ?_, ?_⟩
  · rintro ⟨same, -⟩ loses
    have gone := wf.nodeByUuid?_discard n.uuid
    rw [← (lost loses).2, same] at gone
    exact absurd loses.stored (by simp [gone])
  · intro keeps
    obtain rfl := createNode_error_eq keeps refused
    exact ⟨rfl, rfl⟩
  · intro loses
    obtain ⟨known, rfl⟩ := lost loses
    obtain ⟨⟨id, node⟩, found⟩ := Option.isSome_iff_exists.mp loses.stored
    refine ⟨known, id, node, found, wf.nodeByUuid?_discard n.uuid, ?_⟩
    rw [discard, found]
    exact wf.dropNode_eq id
  · intro pending warnings
    simp only [Progress.storeNode, refused, Progress.warn]

/-- A store that overwrites, with a page that has another path. -/
def onePage : Store :=
  [Operation.createNode ⟨"Home", "page", some "start", "home", []⟩, .commit].foldl Operation.apply
    (.empty true [("page", ["body"])])

/-- A record of an unknown content type with the uuid of the page. -/
def homeArticle : NodeRecord :=
  ⟨"Home", "article", none, "home", []⟩

theorem Reachable.createNode_refused_homeArticle :
    onePage.repository.nodes.length = 1 ∧ onePage.repository.paths.length = 1 ∧
      ∃ t, onePage.createNode homeArticle = (.error (.unknownBundle "article"), t) ∧
        t.repository ≠ onePage.repository ∧ t.repository.nodeByUuid? "home" = none ∧
        ∀ warnings, Progress.storeNode ⟨onePage, [], warnings⟩ homeArticle =
          (none, ⟨t, [], warnings.warn (StoreError.unknownBundle "article").message⟩) := by
  have reachable : Reachable onePage := (Reachable.empty true _).operations _
  have loses : onePage.Loses homeArticle :=
    { titled := by decide
      overwrites := by decide +kernel
      stored := by decide +kernel
      modelled := by decide +kernel
      unknown := by decide +kernel }
  have refused := loses.createNode_eq
  obtain ⟨unchanged, -, lost, run⟩ := reachable.createNode_refused refused
  obtain ⟨-, _, _, -, gone, -⟩ := lost loses
  refine ⟨by decide +kernel, by decide +kernel, _, refused, ?_, gone, run []⟩
  intro same
  rw [same] at gone
  exact absurd loses.stored (by simp [gone])

end ContentImport.Store
