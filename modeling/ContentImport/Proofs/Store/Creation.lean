import ContentImport.Proofs.Store.Identity
import ContentImport.Proofs.Store.Reference
import Mathlib.Data.Set.Card

/-!
What a run created. An operation creates the entities that are in the repository after it and were
not there before. Whatever operations a store has seen, in either mode of overwriting, its ledger
lists the entities that were created since the last commit or rollback and are still there.
-/

set_option autoImplicit false
set_option relaxedAutoImplicit false

namespace ContentImport.Store

/-- An entity: a vocabulary by its id, any other one by its kind and its number. -/
inductive Entity where
  | vocabulary (id : String)
  | numbered (kind : EntityKind) (id : EntityId)
  deriving DecidableEq, Repr

def Repository.Has (r : Repository) : Entity → Prop
  | .vocabulary id => Table.holds r.vocabularies id = true
  | .numbered kind id => id ∈ r.ids kind

namespace Ledger

def ids (l : Ledger) : EntityKind → List EntityId
  | .tag => l.tags
  | .node => l.nodes.map (·.1)
  | .file => l.files
  | .path => l.paths

def Lists (l : Ledger) : Entity → Prop
  | .vocabulary id => id ∈ l.vocabularies
  | .numbered kind id => id ∈ l.ids kind

end Ledger

/-- An entity that an operation created after which no commit and no rollback came. -/
def CreatedInRun (start : Store) (ops : List Operation) (e : Entity) : Prop :=
  ∃ before op after, ops = before ++ op :: after ∧
    (∀ later ∈ op :: after, later.endsRun = false) ∧
    ¬ (before.foldl Operation.apply start).repository.Has e ∧
    (op.apply (before.foldl Operation.apply start)).repository.Has e

variable {scope : Scope} {start s t u : Store} {mark : EntityId}

private theorem createdInRun_concat {ops : List Operation} {op : Operation} {e : Entity} :
    CreatedInRun start (ops ++ [op]) e ↔ op.endsRun = false ∧
      (CreatedInRun start ops e ∨
        ¬ (ops.foldl Operation.apply start).repository.Has e ∧
          (op.apply (ops.foldl Operation.apply start)).repository.Has e) := by
  constructor
  · rintro ⟨before, creates, after, parts, within, absent, present⟩
    rcases List.eq_nil_or_concat' after with rfl | ⟨after, last, rfl⟩
    · obtain ⟨rfl, same⟩ := List.append_inj' parts rfl
      obtain rfl := List.head_eq_of_cons_eq same
      exact ⟨within op List.mem_cons_self, .inr ⟨absent, present⟩⟩
    · have split : ops ++ [op] = (before ++ creates :: after) ++ [last] := by simpa using parts
      obtain ⟨rfl, same⟩ := List.append_inj' split rfl
      obtain rfl := List.head_eq_of_cons_eq same
      refine ⟨within op (by simp), .inl ⟨before, creates, after, rfl, ?_, absent, present⟩⟩
      intro later member
      apply within
      rw [← List.cons_append]
      exact List.mem_append_left _ member
  · rintro ⟨within, ⟨before, creates, after, rfl, still, absent, present⟩ | ⟨absent, present⟩⟩
    · refine ⟨before, creates, after ++ [op], by simp, ?_, absent, present⟩
      intro later member
      rw [← List.cons_append] at member
      rcases List.mem_append.mp member with old | new
      · exact still later old
      · rw [List.mem_singleton.mp new]
        exact within
    · refine ⟨ops, op, [], rfl, ?_, absent, present⟩
      intro later member
      rw [List.mem_singleton.mp member]
      exact within

/-! ## Vocabularies -/

/-- A store that came from another one by creating vocabularies, which the ledger lists behind those
that it listed before. -/
structure Enrols (added : List String) (s t : Store) : Prop where
  entered : t.ledger.vocabularies = s.ledger.vocabularies ++ added
  once : added.Nodup
  absent : ∀ id ∈ added, Table.holds s.repository.vocabularies id = false
  stored : ∀ id, Table.holds t.repository.vocabularies id = true ↔
    Table.holds s.repository.vocabularies id = true ∨ id ∈ added

namespace Enrols

private theorem of_unchanged (entered : t.ledger.vocabularies = s.ledger.vocabularies)
    (stored : t.repository.vocabularies = s.repository.vocabularies) : Enrols [] s t := by
  refine ⟨by simp [entered], List.nodup_nil, by simp, ?_⟩
  intro id
  simp [stored]

private theorem trans {added more : List String} (first : Enrols added s t)
    (second : Enrols more t u) : Enrols (added ++ more) s u := by
  refine ⟨?_, ?_, ?_, ?_⟩
  · rw [second.entered, first.entered, List.append_assoc]
  · refine List.nodup_append.mpr ⟨first.once, second.once, ?_⟩
    rintro id old _ new rfl
    have there := (first.stored id).mpr (.inr old)
    rw [second.absent id new] at there
    cases there
  · intro id member
    rcases List.mem_append.mp member with old | new
    · exact first.absent id old
    · have missing := second.absent id new
      refine Bool.eq_false_iff.mpr ?_
      intro there
      have still := (first.stored id).mpr (.inl there)
      rw [missing] at still
      cases still
  · intro id
    rw [second.stored, first.stored, List.mem_append, or_assoc]

end Enrols

private theorem WellFormed.enrols_edit (wf : s.WellFormed) (step : Edit scope s t) :
    ∃ added, Enrols added s t := by
  cases step with
  | @putVocabulary id name absent =>
    refine ⟨[id], rfl, List.nodup_singleton id, ?_, ?_⟩
    · intro other member
      rw [List.mem_singleton.mp member]
      exact absent
    · intro other
      simp only [Store.putVocabulary, Table.holds, Table.get?_put, List.mem_singleton]
      by_cases same : id = other
      · simp [same]
      · simp [same, Ne.symm same]
  | clearVocabulary within overwrites => exact ⟨[], .of_unchanged rfl rfl⟩
  | putTag within named housed => exact ⟨[], .of_unchanged rfl rfl⟩
  | setParents within found names => exact ⟨[], .of_unchanged rfl rfl⟩
  | putFile absent => exact ⟨[], .of_unchanged rfl rfl⟩
  | dropNode within overwrites found => exact ⟨[], .of_unchanged rfl rfl⟩
  | putNode within titled absent ascending =>
    rw [wf.putNode_eq]
    exact ⟨[], .of_unchanged rfl rfl⟩

private theorem WellFormed.enrols_edits (wf : s.WellFormed) (steps : Edits scope s t) :
    ∃ added, Enrols added s t := by
  induction steps with
  | refl => exact ⟨[], .of_unchanged rfl rfl⟩
  | tail before step ih =>
    obtain ⟨added, first⟩ := ih
    obtain ⟨more, second⟩ := (wf.edits before).enrols_edit step
    exact ⟨added ++ more, first.trans second⟩

/-! ## Numbers -/

private theorem Journal.ledger_ids (journal : Journal mark s) (kind : EntityKind) :
    s.ledger.ids kind = (s.repository.ids kind).filter (mark < ·) := by
  cases kind with
  | tag => rw [Ledger.ids, journal.tags, Repository.ids, List.filter_map]; rfl
  | node => rw [Ledger.ids, journal.nodes, Repository.ids, List.filter_map, List.map_map]; rfl
  | file => rw [Ledger.ids, journal.files, Repository.ids, List.filter_map]; rfl
  | path => rw [Ledger.ids, journal.paths, Repository.ids, List.filter_map]; rfl

/-! ## Ledgers -/

/-- A store after operations, with a mark in front of the numbers that its run gave out. -/
structure Recorded (start : Store) (ops : List Operation) (mark : EntityId) (s : Store) :
    Prop where
  wellFormed : s.WellFormed
  journal : Journal mark s
  newer : ∀ {kind id}, CreatedInRun start ops (.numbered kind id) → mark < id
  created : ∀ {kind id}, id ∈ s.repository.ids kind → mark < id →
    CreatedInRun start ops (.numbered kind id)
  entered : ∀ id, id ∈ s.ledger.vocabularies ↔ CreatedInRun start ops (.vocabulary id)
  once : s.ledger.vocabularies.Nodup
  stored : ∀ id ∈ s.ledger.vocabularies, Table.holds s.repository.vocabularies id = true

namespace Recorded

variable {ops : List Operation} {op : Operation}

private theorem begin (wf : s.WellFormed) (settled : s.ledger = .empty)
    (nothing : ∀ e, ¬ CreatedInRun start ops e) : Recorded start ops s.lastId s := by
  have entered : s.ledger.vocabularies = [] := by rw [settled]; rfl
  refine ⟨wf, wf.journal settled, ?_, ?_, ?_, by simp [entered], by simp [entered]⟩
  · intro kind id created
    exact absurd created (nothing _)
  · intro kind id used newer
    exact absurd (wf.given.ids used) (Nat.not_le.mpr newer)
  · intro id
    simp [entered, nothing]

private theorem proceed (recorded : Recorded start ops mark (ops.foldl Operation.apply start))
    (within : op.endsRun = false)
    {t : Store} (result : op.apply (ops.foldl Operation.apply start) = t) (wf : t.WellFormed)
    (journal : Journal mark t) (renumbers : Renumbers (ops.foldl Operation.apply start) t)
    {added : List String} (enrols : Enrols added (ops.foldl Operation.apply start) t) :
    Recorded start (ops ++ [op]) mark t := by
  have marked := recorded.journal.marked
  refine ⟨wf, journal, ?_, ?_, ?_, ?_, ?_⟩
  · intro kind id created
    obtain ⟨-, old | ⟨absent, present⟩⟩ := createdInRun_concat.mp created
    · exact recorded.newer old
    · rw [result] at present
      have new := (renumbers.ids present).resolve_left absent
      exact Nat.lt_of_le_of_lt marked new
  · intro kind id used newer
    refine createdInRun_concat.mpr ⟨within, ?_⟩
    by_cases before : id ∈ (ops.foldl Operation.apply start).repository.ids kind
    · exact .inl (recorded.created before newer)
    · exact .inr ⟨before, by rw [result]; exact used⟩
  · intro id
    rw [createdInRun_concat, enrols.entered, List.mem_append, recorded.entered, result]
    simp only [within, true_and, Repository.Has]
    refine or_congr_right ?_
    rw [enrols.stored]
    constructor
    · intro new
      have absent := enrols.absent id new
      exact ⟨by simp [absent], .inr new⟩
    · rintro ⟨absent, there | new⟩
      · exact absurd there absent
      · exact new
  · rw [enrols.entered]
    refine List.nodup_append.mpr ⟨recorded.once, enrols.once, ?_⟩
    rintro id old _ new rfl
    have there := recorded.stored id old
    rw [enrols.absent id new] at there
    cases there
  · intro id member
    rw [enrols.entered] at member
    rw [enrols.stored]
    exact (List.mem_append.mp member).imp_left (recorded.stored id)

private theorem operation (recorded : Recorded start ops mark (ops.foldl Operation.apply start))
    (op : Operation) :
    ∃ mark, Recorded start (ops ++ [op]) mark (op.apply (ops.foldl Operation.apply start)) := by
  have wf := recorded.wellFormed
  have journal := recorded.journal
  have sound : (ops.foldl Operation.apply start).Sound := ⟨wf, mark, journal⟩
  have renumbers := sound.renumbers_operation op
  have wf' := (sound.operation op).wellFormed
  cases within : op.endsRun with
  | false =>
    rcases wf.operation_within within with steps | ⟨writes, same⟩
    · obtain ⟨added, enrols⟩ := wf.enrols_edits steps
      exact ⟨mark, recorded.proceed within rfl wf' (journal.edits wf steps) renumbers enrols⟩
    · have unchanged : Enrols [] (ops.foldl Operation.apply start)
          (op.apply (ops.foldl Operation.apply start)) := by
        rw [same, Store.insertReferences_eq]
        exact .of_unchanged rfl rfl
      have entered := same ▸ journal.insertReferences writes
      exact ⟨mark, recorded.proceed within rfl wf' entered renumbers unchanged⟩
  | true =>
    have nothing : ∀ e, ¬ CreatedInRun start (ops ++ [op]) e := by
      intro e created
      rw [createdInRun_concat, within] at created
      exact Bool.false_ne_true created.1.symm
    cases op with
    | rollback => exact ⟨_, begin wf' rfl nothing⟩
    | commit => exact ⟨_, begin wf' rfl nothing⟩
    | _ => cases within

end Recorded

private theorem recorded_operations (wf : start.WellFormed) (settled : start.ledger = .empty)
    (ops : List Operation) :
    ∃ mark, Recorded start ops mark (ops.foldl Operation.apply start) := by
  induction ops using List.reverseRecOn with
  | nil =>
    refine ⟨_, Recorded.begin wf settled ?_⟩
    rintro e ⟨before, op, after, parts, -⟩
    simp at parts
  | append_singleton ops op ih =>
    obtain ⟨mark, recorded⟩ := ih
    rw [List.foldl_append, List.foldl_cons, List.foldl_nil]
    exact recorded.operation op

private theorem length_eq_ncard {α : Type} {l : List α} {p : α → Prop} (once : l.Nodup)
    (listed : ∀ a, a ∈ l ↔ p a) : l.length = {a | p a}.ncard := by
  classical
  have same : {a | p a} = (l.toFinset : Set α) := by
    ext a
    simp [listed]
  rw [same, Set.ncard_coe_finset, List.toFinset_card_of_nodup once]

/-- Whatever operations lead to a store, its ledger lists the entities that are stored and were
created since the last commit or rollback, each once. So its counts are theirs, and the node that it
finds under a uuid is the one of them that has the uuid. -/
theorem ledger_lists_created (overwrite : Bool) (contentModel : Table String (List String))
    (ops : List Operation) :
    let start := Store.empty overwrite contentModel
    let s := ops.foldl Operation.apply start
    let live := {e | s.repository.Has e ∧ CreatedInRun start ops e}
    (∀ e, s.ledger.Lists e ↔ e ∈ live) ∧
      s.ledger.vocabularies.Nodup ∧ (∀ kind, (s.ledger.ids kind).Nodup) ∧
      s.ledger.vocabularies.length = {id | .vocabulary id ∈ live}.ncard ∧
      s.ledger.tags.length = {id | .numbered .tag id ∈ live}.ncard ∧
      s.ledger.nodes.length = {id | .numbered .node id ∈ live}.ncard ∧
      s.ledger.files.length = {id | .numbered .file id ∈ live}.ncard ∧
      ∀ uuid id, s.createdNodeId? uuid = some id ↔
        .numbered .node id ∈ live ∧ ∃ node, (id, node) ∈ s.repository.nodes ∧ node.uuid = uuid := by
  intro start s live
  obtain ⟨mark, recorded⟩ := recorded_operations (WellFormed.empty overwrite contentModel) rfl ops
  have wf := recorded.wellFormed
  have journal := recorded.journal
  have numbered : ∀ kind id, id ∈ s.ledger.ids kind ↔ .numbered kind id ∈ live := by
    intro kind id
    rw [journal.ledger_ids, List.mem_filter, decide_eq_true_eq]
    exact ⟨fun ⟨used, newer⟩ => ⟨used, recorded.created used newer⟩,
      fun ⟨used, created⟩ => ⟨used, recorded.newer created⟩⟩
  have vocabularies : ∀ id, id ∈ s.ledger.vocabularies ↔ .vocabulary id ∈ live := by
    intro id
    constructor
    · intro entered
      exact ⟨recorded.stored id entered, (recorded.entered id).mp entered⟩
    · intro created
      exact (recorded.entered id).mpr created.2
  have once : ∀ kind, (s.ledger.ids kind).Nodup := by
    intro kind
    rw [journal.ledger_ids]
    exact (wf.consistent.ids_nodup kind).filter _
  have count := fun kind => length_eq_ncard (once kind) (numbered kind)
  refine ⟨?_, recorded.once, once, length_eq_ncard recorded.once vocabularies, count .tag, ?_,
    count .file, ?_⟩
  · intro e
    cases e with
    | vocabulary id => exact vocabularies id
    | numbered kind id => exact numbered kind id
  · rw [← count .node, Ledger.ids, List.length_map]
  · intro uuid id
    rw [journal.createdNodeId?_eq_some_iff wf]
    constructor
    · rintro ⟨newer, node, stored, named⟩
      have used : id ∈ s.repository.ids .node := List.mem_map_of_mem (f := (·.1)) stored
      exact ⟨⟨used, recorded.created used newer⟩, node, stored, named⟩
    · rintro ⟨⟨-, created⟩, node, stored, named⟩
      exact ⟨recorded.newer created, node, stored, named⟩

end ContentImport.Store
