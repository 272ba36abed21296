import ContentImport.Proofs.Store.Journal

/-!
What edits leave alone. No edit changes the settings of a store, takes a vocabulary or a file away,
or gives a number out again. Without overwriting, an edit leaves every entity that is older than the
run as it is, except for the parents of tags.
-/

set_option autoImplicit false
set_option relaxedAutoImplicit false

namespace ContentImport.Store

variable {scope : Scope} {s t u : Store}

/-- A store that came from another one without losing vocabularies or files. -/
structure Grows (s t : Store) : Prop where
  overwrite : t.overwrite = s.overwrite
  contentModel : t.contentModel = s.contentModel
  lastId : s.lastId ≤ t.lastId
  files : s.repository.files <+: t.repository.files
  vocabularies : ∀ id, Table.holds s.repository.vocabularies id = true →
    Table.holds t.repository.vocabularies id = true

namespace Grows

private theorem refl (s : Store) : Grows s s :=
  ⟨rfl, rfl, Nat.le_refl _, List.prefix_refl _, fun _ held => held⟩

theorem trans (first : Grows s t) (second : Grows t u) : Grows s u where
  overwrite := second.overwrite.trans first.overwrite
  contentModel := second.contentModel.trans first.contentModel
  lastId := Nat.le_trans first.lastId second.lastId
  files := first.files.trans second.files
  vocabularies id held := second.vocabularies id (first.vocabularies id held)

end Grows

theorem WellFormed.grows_edit (wf : s.WellFormed) (step : Edit scope s t) : Grows s t := by
  have same := Grows.refl s
  cases step with
  | putVocabulary name absent =>
    refine { same with vocabularies := ?_ }
    intro id held
    simp only [Store.putVocabulary, Table.holds, Table.get?_put] at held ⊢
    split
    · rfl
    · exact held
  | clearVocabulary within overwrites => exact { same with }
  | putTag within named housed => exact { same with lastId := Nat.le_succ _ }
  | setParents within found names => exact { same with }
  | putFile absent =>
    rw [wf.putFile_eq]
    exact { same with lastId := Nat.le_succ _, files := List.prefix_append _ _ }
  | dropNode within overwrites found => exact { same with }
  | putNode within titled absent ascending =>
    rw [wf.putNode_eq]
    exact { same with lastId := Nat.le_trans (Nat.le_succ _) (Nat.le_add_right _ _) }

theorem WellFormed.grows (wf : s.WellFormed) (steps : Edits scope s t) : Grows s t := by
  induction steps with
  | refl => exact .refl s
  | tail before step ih => exact ih.trans ((wf.edits before).grows_edit step)

def Repository.SameButParents (r r' : Repository) : Prop :=
  r' = { r with tags := r'.tags } ∧
    r'.tags.map (fun e => (e.1, e.2.vocabularyId, e.2.name)) =
      r.tags.map fun e => (e.1, e.2.vocabularyId, e.2.name)

/-- What a rollback would leave of a store. -/
abbrev older (s : Store) (mark : EntityId) : Repository :=
  s.repository.upTo mark s.ledger.vocabularies

variable {mark : EntityId}

theorem WellFormed.older_eq (wf : s.WellFormed) (settled : s.ledger = .empty) :
    s.older s.lastId = s.repository := by
  have tags := List.filter_eq_self.mpr fun e member => decide_eq_true (wf.given.tags e member)
  have nodes := List.filter_eq_self.mpr fun e member => decide_eq_true (wf.given.nodes e member)
  have files := List.filter_eq_self.mpr fun e member => decide_eq_true (wf.given.files e member)
  have paths := List.filter_eq_self.mpr fun e member => decide_eq_true (wf.given.paths e member)
  simp only [older, Repository.upTo, tags, nodes, files, paths]
  simp [settled, Ledger.empty]

private theorem filter_append_newer {ν : Type} (table : Table EntityId ν) {last : EntityId}
    (value : ν) (marked : mark ≤ last) :
    (table ++ [(last + 1, value)]).filter (·.1 ≤ mark) = table.filter (·.1 ≤ mark) := by
  have newer : ¬ last + 1 ≤ mark := Nat.not_le.mpr (Nat.lt_succ_of_le marked)
  rw [List.filter_append, List.filter_cons_of_neg (by simpa using newer), List.filter_nil,
    List.append_nil]

private theorem filter_put {κ ν : Type} [DecidableEq κ] [LT κ] [DecidableLT κ] {t : Table κ ν}
    {key : κ} (absent : Table.holds t key = false) (value : ν) (keep : κ → Bool)
    (dropped : keep key = false) :
    (Table.put key value t).filter (fun e => keep e.1) = t.filter fun e => keep e.1 := by
  induction t with
  | nil => simp [Table.put, dropped]
  | cons entry rest ih =>
    have differ : entry.1 ≠ key := by
      intro same
      simp [Table.holds, Table.get?, same] at absent
    have later : Table.holds rest key = false := by
      simpa [Table.holds, Table.get?, differ] using absent
    rw [Table.put, if_neg (Ne.symm differ)]
    split
    · rw [List.filter_cons_of_neg (by simpa using dropped)]
    · rw [List.filter_cons, List.filter_cons, ih later]

private theorem older_putVocabulary (s : Store) {id : String} (name : String)
    (absent : Table.holds s.repository.vocabularies id = false) :
    (s.putVocabulary id name).older mark = s.older mark := by
  have dropped := filter_put absent name
    (fun key => decide (key ∉ s.ledger.vocabularies ++ [id])) (by simp)
  have vocabularies :
      ((Table.put id name s.repository.vocabularies).filter fun e =>
        e.1 ∉ s.ledger.vocabularies ++ [id]) =
        s.repository.vocabularies.filter fun e => e.1 ∉ s.ledger.vocabularies := by
    refine dropped.trans (List.filter_congr ?_)
    intro e member
    have differ : e.1 ≠ id := by
      rintro rfl
      rw [Table.holds_iff.mpr ⟨e.2, member⟩] at absent
      exact Bool.false_ne_true absent.symm
    simp [differ]
  exact congrArg (fun vocabularies => { s.older mark with vocabularies }) vocabularies

private theorem map_adjust_parents (tags : Table EntityId StoredTag) (id : EntityId)
    (parents : List EntityId) :
    ((Table.adjust tags id fun tag => { tag with parents }).filter (·.1 ≤ mark)).map
        (fun e => (e.1, e.2.vocabularyId, e.2.name)) =
      (tags.filter (·.1 ≤ mark)).map fun e => (e.1, e.2.vocabularyId, e.2.name) := by
  have keys : ∀ e : EntityId × StoredTag,
      (if e.1 = id then (e.1, { e.2 with parents }) else e).1 = e.1 := by
    intro e
    split <;> rfl
  rw [Table.adjust, List.filter_map, List.map_map]
  simp only [Function.comp_def, keys]
  refine List.map_congr_left ?_
  intro e _
  split <;> rfl

/-- Unless an edit replaces a vocabulary or a node, it leaves what is older than the run, except for
parents. -/
theorem Journal.older_edit (journal : Journal mark s) (wf : s.WellFormed)
    (step : Edit scope s t) :
    (s.older mark).SameButParents (t.older mark) ∨
      s.overwrite = true ∧ ((∃ id, t = s.clearVocabulary id) ∨ ∃ id, t = s.dropNode id) := by
  have unchanged : ∀ {r r' : Repository}, r' = r → r.SameButParents r' := by
    rintro r _ rfl
    exact ⟨rfl, rfl⟩
  cases step with
  | putVocabulary name absent => exact .inl (unchanged (older_putVocabulary s name absent))
  | clearVocabulary within overwrites => exact .inr ⟨overwrites, .inl ⟨_, rfl⟩⟩
  | putTag within named housed =>
    rw [wf.putTag_eq]
    refine .inl (unchanged ?_)
    simp only [older, Repository.upTo, filter_append_newer _ _ journal.marked]
    rfl
  -- The one edit that changes what is older than the run, since no ledger records it.
  | setParents within found names => exact .inl ⟨rfl, map_adjust_parents _ _ _⟩
  | putFile absent =>
    rw [wf.putFile_eq]
    refine .inl (unchanged ?_)
    simp only [older, Repository.upTo, filter_append_newer _ _ journal.marked]
    rfl
  | dropNode within overwrites found => exact .inr ⟨overwrites, .inr ⟨_, rfl⟩⟩
  | @putNode n values within titled absent ascending =>
    rw [wf.putNode_eq]
    refine .inl (unchanged ?_)
    have newer : mark < s.lastId + 2 := Nat.lt_succ_of_lt (Nat.lt_succ_of_le journal.marked)
    have aliases : (s.aliasPaths n).filter (·.1 ≤ mark) = [] := by
      unfold aliasPaths
      cases n.pathAlias with
      | none => rfl
      | some text => simpa using newer
    simp only [older, Repository.upTo, filter_append_newer _ _ journal.marked,
      List.filter_append, aliases, List.append_nil]

private theorem Journal.sameButParents_edit (journal : Journal mark s) (wf : s.WellFormed)
    (keeps : s.overwrite = false) (step : Edit scope s t) :
    (s.older mark).SameButParents (t.older mark) :=
  (journal.older_edit wf step).resolve_right (by simp [keeps])

theorem Journal.sameButParents (journal : Journal mark s) (wf : s.WellFormed)
    (keeps : s.overwrite = false) (steps : Edits scope s t) :
    (s.older mark).SameButParents (t.older mark) := by
  induction steps with
  | refl => exact ⟨rfl, rfl⟩
  | @tail middle last before step ih =>
    have still : middle.overwrite = false := (wf.grows before).overwrite.trans keeps
    have entered := journal.edits wf before
    obtain ⟨same, named⟩ := entered.sameButParents_edit (wf.edits before) still step
    refine ⟨?_, named.trans ih.2⟩
    rw [same, ih.1]

end ContentImport.Store
