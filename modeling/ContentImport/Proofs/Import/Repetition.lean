import ContentImport.Proofs.Import.Overwriting
import ContentImport.Proofs.Import.References
import ContentImport.Proofs.Store.Renamed

/-!
Importing one source twice. With overwriting on, the first run is followed on its way to the store
that the second one starts from. Outside the records of the source both begin alike, every record
that is written makes them alike further, and in the end everything is alike, references included.
-/

set_option autoImplicit false
set_option relaxedAutoImplicit false

namespace ContentImport

open ContentImport.Store

/-! ## Nodes of both runs -/

def renameOwner (ρ : EntityId → EntityId) (d : DeferredReference) : DeferredReference :=
  { d with owningNode := ρ d.owningNode }

private theorem splitDeferred_renameCreated (ρ : EntityId → EntityId) (n : NodeRecord)
    (created : CreatedNode) :
    splitDeferred n (renameCreated ρ created) =
      (splitDeferred n created).map (renameOwner ρ) := by
  unfold splitDeferred
  rw [List.map_filterMap]
  refine List.filterMap_congr ?_
  intro f _
  cases f.deferredTargets? with
  | none => rfl
  | some targets => cases f.references <;> rfl

/-- Two runs whose stores are alike and whose fields wait for the same. -/
structure AlikeProgress (scope : Scope) (start : EntityId) (goal : Store)
    (ρ : EntityId → EntityId) (p q : Progress) : Prop where
  store : Alike scope start goal ρ p.store q.store
  pending : q.pending = p.pending.map (renameOwner ρ)
  owners : ∀ d ∈ p.pending, d.owningNode ≤ p.store.lastId

namespace AlikeProgress

variable {scope : Scope} {start : EntityId} {goal : Store} {ρ : EntityId → EntityId}
  {p q : Progress}

private theorem map_renameOwner_congr {ρ' : EntityId → EntityId} {last : EntityId}
    {pending : List DeferredReference} (owners : ∀ d ∈ pending, d.owningNode ≤ last)
    (agree : ∀ id ≤ last, ρ' id = ρ id) :
    pending.map (renameOwner ρ') = pending.map (renameOwner ρ) := by
  refine List.map_congr_left ?_
  intro d member
  rw [renameOwner, renameOwner, agree d.owningNode (owners d member)]

private theorem storeNode (alike : AlikeProgress scope start goal ρ p q) {n : NodeRecord}
    (grows : Grows (p.storeNode n).2.store goal) :
    ∃ ρ', AlikeProgress (scope.withoutNode n) start goal ρ' (p.storeNode n).2
      (q.storeNode n).2 := by
  rw [Progress.storeNode_store] at grows
  obtain ⟨ρ', agree, stores, outcomes⟩ := alike.store.createNode grows
  have kept := map_renameOwner_congr alike.owners agree
  have further := (alike.store.first.grows (alike.store.first.createNode_everything n)).lastId
  have passes : ∀ e, (p.store.createNode n).1 = .error e → e.isFatal = false :=
    fun e => createNode_passes alike.store.firstOverwrites
  refine ⟨ρ', ?_⟩
  unfold Progress.storeNode
  cases outcomeA : p.store.createNode n with
  | mk resultA a =>
    cases outcomeB : q.store.createNode n with
    | mk resultB b =>
      rw [outcomeA] at stores outcomes further passes
      rw [outcomeB] at stores outcomes
      simp only at outcomes
      subst outcomes
      cases resultA with
      | error e =>
        have harmless := passes e rfl
        simp only [Except.map, harmless, Bool.false_eq_true, if_false]
        refine ⟨stores, ?_, ?_⟩
        · exact alike.pending.trans kept.symm
        · exact fun d member => Nat.le_trans (alike.owners d member) further
      | ok created =>
        have given := (alike.store.first.createNode_ok outcomeA).2.1
        refine ⟨stores, ?_, ?_⟩
        · simp only [Except.map, List.map_append, alike.pending, kept,
            splitDeferred_renameCreated]
        · intro d member
          rcases List.mem_append.mp member with old | new
          · exact Nat.le_trans (alike.owners d old) further
          · rw [(mem_splitDeferred new).1]
            exact given

private theorem storeNodes (alike : AlikeProgress scope start goal ρ p q)
    {entries : List (Noted (Option NodeRecord))}
    (grows : Grows (p.storeNodes entries).2.store goal) :
    ∃ ρ', AlikeProgress (scope.withoutNodes (entries.filterMap (·.value))) start goal ρ'
      (p.storeNodes entries).2 (q.storeNodes entries).2 := by
  induction entries generalizing scope ρ p q with
  | nil => exact ⟨ρ, alike⟩
  | cons entry entries ih =>
    have noted : AlikeProgress scope start goal ρ (p.noting entry) (q.noting entry) :=
      { alike with }
    cases present : entry.value with
    | none =>
      rw [Progress.storeNodes_cons_none p present] at grows ⊢
      rw [Progress.storeNodes_cons_none q present, List.filterMap_cons_none present]
      exact ih noted grows
    | some n =>
      have passedA := Progress.storeNode_passes noted.store.firstOverwrites n
      have passedB := Progress.storeNode_passes noted.store.secondOverwrites n
      rw [Progress.storeNodes_cons_passed p present passedA] at grows ⊢
      rw [Progress.storeNodes_cons_passed q present passedB, List.filterMap_cons_some present]
      have wf := noted.store.first.edits
        ((p.noting entry).storeNode_edits noted.store.first n)
      have rest : Edits .everything ((p.noting entry).storeNode n).2.store
          (((p.noting entry).storeNode n).2.storeNodes entries).2.store :=
        Progress.storeNodes_edits _ wf entries fun _ _ _ => rfl
      -- The numbers that this node takes are given out before the goal, as all later ones are.
      obtain ⟨ρ', next⟩ := noted.storeNode ((wf.grows rest).trans grows)
      exact ih next grows

end AlikeProgress

/-! ## Runs -/

namespace ImportSource

variable {settings : ImportSettings} {source : ImportSource} {s : Store}

/-- The references that a run writes once its nodes are stored. -/
def references (settings : ImportSettings) (source : ImportSource) (s : Store) :
    List ReferenceWrite :=
  let p := (source.unresolved settings s).2
  p.pending.map p.store.resolveReference

/-- The reference fields that a run writes, each with the number of its node. -/
def referenceFields (settings : ImportSettings) (source : ImportSource) (s : Store) :
    List (EntityId × String) :=
  (source.references settings s).map fun w => (w.node, w.fieldName)

/-- The store that a run leaves which has written everything. -/
def written (settings : ImportSettings) (source : ImportSource) (s : Store) : Store :=
  ((source.unresolved settings s).2.store.insertReferences (source.references settings s)).commit

theorem runSource_of_passed (passed : (source.unresolved settings s).1 = none) :
    runSource settings source s =
      (.ok ((source.unresolved settings s).2.resolve.2.summary source),
        source.written settings s) := by
  rw [runSource_eq]
  split
  · next failed =>
    rw [failed] at passed
    cases passed
  · next p stored =>
    rw [written, references, stored]
    rfl

private theorem runSource_written (wf : s.WellFormed) (overwrites : s.overwrite = true) :
    runSource settings source s =
      (.ok ((source.unresolved settings s).2.resolve.2.summary source),
        source.written settings s) :=
  runSource_of_passed (source.unresolved_passes settings wf overwrites)

private theorem grows_written (settings : ImportSettings) (source : ImportSource) (s : Store) :
    Grows (source.unresolved settings s).2.store (source.written settings s) := by
  rw [written, insertReferences_eq]
  exact ⟨rfl, rfl, Nat.le_refl _, List.prefix_refl _, fun _ held => held⟩

theorem references_newer (wf : s.WellFormed) (settled : s.ledger = .empty)
    (passed : (source.unresolved settings s).1 = none) :
    ∀ w ∈ source.references settings s, s.lastId < w.node := by
  have accepting := source.accepting_unresolved wf settled passed
  intro w written
  obtain ⟨d, waiting, rfl⟩ := List.mem_map.mp written
  rw [accepting.pending] at waiting
  obtain ⟨a, held, inside⟩ := List.mem_flatMap.mp waiting
  have newer := accepting.newer a held
  rwa [← (mem_splitDeferred inside).1] at newer

private theorem outside_written (settings : ImportSettings) (source : ImportSource)
    (wf : s.WellFormed) (overwrites : s.overwrite = true) (settled : s.ledger = .empty) :
    s.repository.SameOutside (source.scope settings) (source.written settings s).repository := by
  have steps := source.unresolved_edits wf settings
  have same := wf.outside_edits steps
  have newer := source.references_newer wf settled (source.unresolved_passes settings wf overwrites)
  -- References belong to nodes of this run, and nodes outside the scope are older.
  refine same.trans (outside_insertReferences ?_)
  intro e member w written
  rw [same.nodes] at member
  have old := wf.given.nodes e (List.mem_filter.mp member).1
  exact Nat.ne_of_gt (Nat.lt_of_le_of_lt old (newer w written))

private theorem alike_written (settings : ImportSettings) (source : ImportSource)
    (wf : s.WellFormed) (overwrites : s.overwrite = true) (settled : s.ledger = .empty) :
    Alike (source.scope settings) s.lastId (source.written settings s) id s
      (source.written settings s) := by
  have steps := source.unresolved_edits wf settings
  have grows := (wf.grows steps).trans (source.grows_written settings s)
  have same := source.outside_written settings wf overwrites settled
  have second : (source.written settings s).WellFormed := by
    have inserted := (wf.edits steps).insertReferences (source.references settings s)
    exact ⟨inserted.consistent, inserted.given⟩
  refine ⟨wf, second, overwrites, grows.overwrite.trans overwrites, grows.contentModel, rfl, rfl,
    ?_, ?_, ?_, ?_, ?_⟩
  · exact .refl s.lastId _
  · rw [same.tags, renameTag_id, List.map_id]
  · rw [same.nodes, renameNode_id, List.map_id]
  · rw [same.paths]
    refine ((List.map_congr_left ?_).trans (List.map_id _)).symm
    exact fun e member => renamePath_id wf.consistent (List.mem_filter.mp member).1
  · intro e member newer
    exact absurd (wf.given.nodes e (List.mem_filter.mp member).1) (Nat.not_le.mpr newer)

private theorem alike_unresolved (settings : ImportSettings) (source : ImportSource)
    (wf : s.WellFormed) (overwrites : s.overwrite = true) (settled : s.ledger = .empty) :
    ∃ ρ, AlikeProgress .nothing s.lastId (source.written settings s) ρ
      (source.unresolved settings s).2
      (source.unresolved settings (source.written settings s)).2 := by
  have alike := source.alike_written settings wf overwrites settled
  have grows := source.grows_written settings s
  have wf' := wf.edits (source.tagged_edits settings s)
  have rest : Edits .everything (source.tagged settings s).store
      (source.unresolved settings s).2.store :=
    Progress.storeNodes_edits _ wf' _ fun _ _ _ => rfl
  obtain ⟨ρ, tagged⟩ := alike.importVocabularies ((wf'.grows rest).trans grows)
  have start : AlikeProgress _ s.lastId (source.written settings s) ρ (source.tagged settings s)
      (source.tagged settings (source.written settings s)) :=
    ⟨tagged, rfl, by simp [ImportSource.tagged]⟩
  obtain ⟨ρ', stored⟩ := start.storeNodes grows
  rw [← ImportSource.recordsFor, source.scope_written] at stored
  exact ⟨ρ', stored⟩

end ImportSource

/-! ## References -/

namespace AlikeProgress

variable {start : EntityId} {goal : Store} {ρ : EntityId → EntityId} {p q : Progress}

private theorem createdNodeId? (alike : AlikeProgress .nothing start goal ρ p q)
    (later : start ≤ goal.lastId) (first : Journal start p.store)
    (second : Journal goal.lastId q.store) (uuid : String) :
    q.store.createdNodeId? uuid = (p.store.createdNodeId? uuid).map ρ := by
  have nodes := alike.store.nodes
  have newer := alike.store.newer
  rw [Repository.nodesOutside_nothing] at nodes newer
  rw [Repository.nodesOutside_nothing] at nodes
  have behind : ∀ e ∈ p.store.repository.nodes, goal.lastId < ρ e.1 ↔ start < e.1 := by
    intro e member
    refine ⟨fun moved => ?_, newer e member⟩
    -- What is older than both runs is not renamed, so it is not behind the goal either.
    by_contra given
    have old := Nat.not_lt.mp given
    rw [alike.store.renamed.fixed e.1 old] at moved
    exact absurd (Nat.le_trans old later) (Nat.not_le.mpr moved)
  have entered : q.store.ledger.nodes = p.store.ledger.nodes.map fun e => (ρ e.1, e.2) := by
    rw [first.nodes, second.nodes, nodes, List.filter_map, List.map_map, List.map_map]
    refine congrArg (List.map _) (List.filter_congr ?_)
    exact fun e member => decide_eq_decide.mpr (behind e member)
  unfold Store.createdNodeId? Ledger.nodeId?
  rw [entered, List.find?_map, Option.map_map, Option.map_map]
  rfl

private theorem resolveTarget? (alike : AlikeProgress .nothing start goal ρ p q)
    (later : start ≤ goal.lastId) (first : Journal start p.store)
    (second : Journal goal.lastId q.store) (item : FieldItem) :
    q.store.resolveTarget? item = (p.store.resolveTarget? item).map ρ := by
  cases item with
  | node uuid => exact alike.createdNodeId? later first second uuid
  | tag ref => exact alike.store.tagId? rfl ref.name
  | file uri => rfl
  | literal value => rfl

private theorem references (alike : AlikeProgress .nothing start goal ρ p q)
    (later : start ≤ goal.lastId) (first : Journal start p.store)
    (second : Journal goal.lastId q.store) :
    q.pending.map q.store.resolveReference =
      (p.pending.map p.store.resolveReference).map (renameWrite ρ) := by
  rw [alike.pending, List.map_map, List.map_map]
  refine List.map_congr_left ?_
  intro d _
  have targets : d.targets.map q.store.resolveTarget? =
      (d.targets.map p.store.resolveTarget?).map (Option.map ρ) := by
    rw [List.map_map]
    exact List.map_congr_left fun item _ => alike.resolveTarget? later first second item
  exact congrArg (ReferenceWrite.mk (ρ d.owningNode) d.fieldName d.kind) targets

private theorem renamedNodes (alike : AlikeProgress .nothing start goal ρ p q)
    (room : p.store.lastId ≤ goal.lastId) (writes : List ReferenceWrite)
    (owners : ∀ w ∈ writes, w.node ≤ p.store.lastId) :
    List.Forall₂ (NodeRenamed ρ (writes.map fun w => (w.node, w.fieldName)))
      (p.store.insertReferences writes).repository.nodes
      (q.store.insertReferences (writes.map (renameWrite ρ))).repository.nodes := by
  have nodes := alike.store.nodes
  rw [Repository.nodesOutside_nothing, Repository.nodesOutside_nothing] at nodes
  rw [insertReferences_nodes, insertReferences_nodes, nodes]
  simp only [List.map_map, List.forall₂_map_left_iff, List.forall₂_map_right_iff]
  refine List.forall₂_same.mpr ?_
  intro e member
  have given := alike.store.first.given.nodes e member
  have ascending := alike.store.first.consistent.fieldsAscending e member
  have injective : ∀ w ∈ writes, ρ w.node = ρ e.1 ↔ w.node = e.1 :=
    fun w listed => alike.store.injective room (owners w listed) given
  have fields := writtenFields_renamed ascending injective
  refine ⟨rfl, rfl, rfl, rfl, fields.imp fun f f' pair => ⟨pair.1, valueRenamed_congr ?_ pair.2⟩⟩
  simp [IsWritten]

end AlikeProgress

private theorem ImportSource.written_written {s : Store} (settings : ImportSettings)
    (source : ImportSource) (wf : s.WellFormed) (overwrites : s.overwrite = true)
    (settled : s.ledger = .empty) :
    let goal := source.written settings s
    ∃ ρ : EntityId → EntityId, (∀ id ≤ s.lastId, ρ id = id) ∧
      Set.InjOn ρ (Set.Iic goal.lastId) ∧
      Repository.Renamed ρ (source.referenceFields settings s) goal.repository
        (source.written settings goal).repository := by
  intro goal
  obtain ⟨ρ, alike⟩ := source.alike_unresolved settings wf overwrites settled
  have again := source.alike_written settings wf overwrites settled
  have grows := source.grows_written settings s
  have steps := source.unresolved_edits wf settings
  have stepsAgain := source.unresolved_edits again.second settings
  have first := (wf.journal settled).edits wf steps
  have second := (again.second.journal rfl).edits again.second stepsAgain
  have later : s.lastId ≤ goal.lastId := Nat.le_trans first.marked grows.lastId
  have owners : ∀ w ∈ source.references settings s,
      w.node ≤ (source.unresolved settings s).2.store.lastId := by
    intro w written
    obtain ⟨d, waiting, rfl⟩ := List.mem_map.mp written
    exact alike.owners d waiting
  have references : source.references settings goal =
      (source.references settings s).map (renameWrite ρ) := alike.references later first second
  have nodes := alike.renamedNodes grows.lastId (source.references settings s) owners
  have tags := alike.store.tags
  have paths := alike.store.paths
  rw [Repository.tagsOutside_nothing, Repository.tagsOutside_nothing] at tags
  rw [alike.store.first.consistent.pathsOutside_nothing,
    alike.store.second.consistent.pathsOutside_nothing] at paths
  rw [← references] at nodes
  refine ⟨ρ, alike.store.renamed.fixed, alike.store.renamed.injective, ⟨?_, ?_, ?_, ?_, nodes⟩⟩
  · exact (insertReferences_vocabularies _ _).trans alike.store.vocabularies
  · exact (insertReferences_files _ _).trans alike.store.files
  · have kept : goal.repository.tags = (source.unresolved settings s).2.store.repository.tags :=
      insertReferences_tags _ _
    rw [kept]
    exact (insertReferences_tags _ _).trans tags
  · have kept : goal.repository.paths = (source.unresolved settings s).2.store.repository.paths :=
      insertReferences_paths _ _
    rw [kept]
    exact (insertReferences_paths _ _).trans paths

/-- With overwriting on, an import may be repeated: the second run succeeds like the first, and its
repository is that of the first with other numbers. Numbers that were given out before are kept, and
different numbers stay different. -/
theorem runImport_twice {s : Store} {settings : ImportSettings} {path : String}
    {content : PathContent} {source : ImportSource} (reachable : Reachable s)
    (overwrites : s.overwrite = true) (settled : s.ledger = .empty)
    (opened : openSource settings path content = .ok source) :
    let first := runImport settings path content s
    let second := runImport settings path content first.2
    first.1.isOk = true ∧ second.1.isOk = true ∧
      ∃ ρ : EntityId → EntityId, (∀ id ≤ s.lastId, ρ id = id) ∧
        Set.InjOn ρ (Set.Iic first.2.lastId) ∧
        Repository.Renamed ρ (source.referenceFields settings s) first.2.repository
          second.2.repository := by
  have wf := reachable.sound.wellFormed
  have again := source.alike_written settings wf overwrites settled
  have run : ∀ t, runImport settings path content t = runSource settings source t := by
    intro t
    rw [runImport, opened]
  simp only [run, source.runSource_written wf overwrites,
    source.runSource_written again.second again.secondOverwrites]
  exact ⟨rfl, rfl, source.written_written settings wf overwrites settled⟩

/-- A document of two fruits, the first of which refers to the second. -/
def kindredFruits : PathContent :=
  .file ("\x7b\"nodes\":[\x7b\"title\":\"Apple\",\"type\":\"fruit\",\"uuid\":\"apple\"," ++
    "\"fields\":[\x7b\"field_name\":\"kin\",\"value\":[\"pear\"],\"references\":\"node\"\x7d]\x7d," ++
    "\x7b\"title\":\"Pear\",\"type\":\"fruit\",\"uuid\":\"pear\"\x7d]\x7d").toUTF8.toList

theorem runImport_twice_kindredFruits :
    let first := (runImport .standard "fruit.json" kindredFruits (.empty true [])).2
    let second := (runImport .standard "fruit.json" kindredFruits first).2
    first.repository.nodes.map (·.1) = [1, 2] ∧ second.repository.nodes.map (·.1) = [3, 4] ∧
      ∃ source ρ, openSource .standard "fruit.json" kindredFruits = .ok source ∧
        Repository.Renamed ρ (source.referenceFields .standard (.empty true [])) first.repository
          second.repository := by
  have run :
      let first := (runImport .standard "fruit.json" kindredFruits (.empty true [])).2
      let second := (runImport .standard "fruit.json" kindredFruits first).2
      (first.repository.nodes.map (·.1), second.repository.nodes.map (·.1)) =
        ([1, 2], [3, 4]) := by
    decide +kernel
  obtain ⟨first, second⟩ := Prod.mk.inj run
  cases opened : openSource .standard "fruit.json" kindredFruits with
  | error e =>
    rw [runImport, opened] at first
    cases first
  | ok source =>
    obtain ⟨-, -, ρ, -, -, renamed⟩ := runImport_twice (.empty true []) rfl rfl opened
    exact ⟨first, second, source, ρ, rfl, renamed⟩

end ContentImport
