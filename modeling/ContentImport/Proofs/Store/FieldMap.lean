import ContentImport.Proofs.Store.Operation

/-!
The fields of a stored node. A node is written with one value for each name, and a later field of a
name replaces an earlier one; where no two fields share a name, each that is accepted keeps the value
that it was written with. Files are created as values need them, and a store that has them all gives
the same values again.
-/

set_option autoImplicit false
set_option relaxedAutoImplicit false

namespace ContentImport.Store

variable {s t : Store}

/-! ## Files -/

private theorem fileId?_of_prefix {r r' : Repository} (before : r.files <+: r'.files)
    {uri : String} {id : EntityId} (found : r.fileId? uri = some id) :
    r'.fileId? uri = some id := by
  obtain ⟨more, files⟩ := before
  obtain ⟨e, hit, rfl⟩ := Option.map_eq_some_iff.mp found
  unfold Repository.fileId?
  rw [← files, List.find?_append, hit]
  rfl

private theorem fileId?_fileFor (wf : s.WellFormed) (uri : String) :
    (s.fileFor uri).2.repository.fileId? uri = some (s.fileFor uri).1 := by
  unfold fileFor
  split
  · next id found => exact found
  · next absent =>
    change (s.putFile uri).repository.fileId? uri = some (s.lastId + 1)
    have missing := Option.map_eq_none_iff.mp absent
    rw [wf.putFile_eq]
    unfold Repository.fileId?
    rw [List.find?_append, missing]
    simp

private theorem fileFor_reuse (wf : s.WellFormed) {uri : String}
    (files : (s.fileFor uri).2.repository.files <+: t.repository.files) :
    t.fileFor uri = ((s.fileFor uri).1, t) := by
  have found := fileId?_of_prefix files (fileId?_fileFor wf uri)
  rw [Store.fileFor.eq_def t, found]

private theorem itemValues_reuse (wf : s.WellFormed) {items : List FieldItem}
    (files : (s.itemValues items).2.repository.files <+: t.repository.files) :
    t.itemValues items = ((s.itemValues items).1, t) := by
  induction items generalizing s with
  | nil => rfl
  | cons item items ih =>
    cases item with
    | file uri =>
      have filed : Edits .everything s (s.fileFor uri).2 := (fileFor_filings s uri).edits
      have wf' := wf.edits filed
      have later : Edits .everything (s.fileFor uri).2 ((s.fileFor uri).2.itemValues items).2 :=
        (itemValues_filings _ items).edits
      have sooner := (wf'.grows later).files.trans files
      simp only [itemValues, fileFor_reuse wf sooner, ih wf' files]
    | node uuid => simp only [itemValues, ih wf files]
    | tag ref => simp only [itemValues, ih wf files]
    | literal value => simp only [itemValues, ih wf files]

private theorem fieldValue?_reuse (wf : s.WellFormed) {f : FieldRecord}
    (files : (s.fieldValue? f).2.repository.files <+: t.repository.files) :
    t.fieldValue? f = ((s.fieldValue? f).1, t) := by
  unfold fieldValue? at files ⊢
  split
  · rfl
  · next immediate =>
    rw [if_neg immediate] at files
    split
    · next items held =>
      simp only [held] at files ⊢
      rw [itemValues_reuse wf files]
    · rfl

private theorem writeField_reuse (accepted : Option (List String)) (wf : s.WellFormed)
    {f : FieldRecord} {written : WrittenFields}
    (files : (writeField accepted (written, s) f).2.repository.files <+: t.repository.files) :
    writeField accepted (written, t) f = ((writeField accepted (written, s) f).1, t) := by
  simp only [writeField] at files ⊢
  split
  · rfl
  · next known =>
    rw [if_neg known] at files
    have same : t.fieldValue? f = ((s.fieldValue? f).1, t) := by
      refine fieldValue?_reuse wf ?_
      split at files <;> next held => rwa [held]
    rw [same]
    cases held : s.fieldValue? f with
    | mk value filed => cases value <;> rfl

private theorem files_foldl_writeField (accepted : Option (List String))
    (state : WrittenFields × Store) (wf : state.2.WellFormed) (f : FieldRecord)
    (fields : List FieldRecord) :
    (writeField accepted state f).2.WellFormed ∧
      (writeField accepted state f).2.repository.files <+:
        ((f :: fields).foldl (writeField accepted) state).2.repository.files := by
  have filed : Edits .everything state.2 (writeField accepted state f).2 :=
    (writeField_filings accepted state f).edits
  have later : Edits .everything (writeField accepted state f).2
      (fields.foldl (writeField accepted) (writeField accepted state f)).2 :=
    (foldl_writeField_filings accepted fields _).edits
  exact ⟨wf.edits filed, ((wf.edits filed).grows later).files⟩

private theorem foldl_writeField_reuse (accepted : Option (List String)) (wf : s.WellFormed)
    {fields : List FieldRecord} (written : WrittenFields)
    (files : (fields.foldl (writeField accepted) (written, s)).2.repository.files <+:
      t.repository.files) :
    fields.foldl (writeField accepted) (written, t) =
      ((fields.foldl (writeField accepted) (written, s)).1, t) := by
  induction fields generalizing s written with
  | nil => rfl
  | cons f fields ih =>
    obtain ⟨wf', sooner⟩ := files_foldl_writeField accepted (written, s) wf f fields
    rw [List.foldl_cons, List.foldl_cons, writeField_reuse accepted wf (sooner.trans files)]
    exact ih wf' _ files

theorem writeFields_reuse (accepted : Option (List String)) (wf : s.WellFormed)
    {fields : List FieldRecord}
    (files : (writeFields accepted s fields).2.repository.files <+: t.repository.files) :
    writeFields accepted t fields = ((writeFields accepted s fields).1, t) :=
  foldl_writeField_reuse accepted wf ⟨[], []⟩ files

/-! ## Values -/

def refuses (accepted : Option (List String)) (f : FieldRecord) : Bool :=
  accepted.any (!·.contains f.fieldName)

section

variable (accepted : Option (List String)) (state : WrittenFields × Store) (f : FieldRecord)

private theorem writeField_skipped :
    (writeField accepted state f).1.skipped =
      state.1.skipped ++ if refuses accepted f then [f.fieldName] else [] := by
  obtain ⟨written, s⟩ := state
  unfold writeField refuses
  simp only
  split
  · rfl
  · rw [List.append_nil]
    split <;> rfl

end

section

variable {accepted : Option (List String)} {fields : List FieldRecord} {f : FieldRecord}
  {name : String}

theorem writeFields_skipped (s : Store) (accepted : Option (List String))
    (fields : List FieldRecord) :
    (writeFields accepted s fields).1.skipped =
      (fields.filter (refuses accepted)).map (·.fieldName) := by
  have gathered : ∀ state : WrittenFields × Store,
      (fields.foldl (writeField accepted) state).1.skipped =
        state.1.skipped ++ (fields.filter (refuses accepted)).map (·.fieldName) := by
    induction fields with
    | nil => exact fun state => (List.append_nil _).symm
    | cons f fields ih =>
      intro state
      rw [List.foldl_cons, ih, writeField_skipped, List.append_assoc, List.filter_cons]
      cases refuses accepted f <;> rfl
  exact gathered _

theorem mem_names_refused (member : f ∈ fields) :
    f.fieldName ∈ (fields.filter (refuses accepted)).map (·.fieldName) ↔
      refuses accepted f = true := by
  rw [List.mem_map]
  constructor
  · rintro ⟨g, refused, named⟩
    have known := (List.mem_filter.mp refused).2
    rwa [refuses, named] at known
  · exact fun refused => ⟨f, List.mem_filter.mpr ⟨member, refused⟩, rfl⟩

end

end ContentImport.Store
