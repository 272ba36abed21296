import ContentImport.Proofs.Store.Outside
import Mathlib.Data.List.Induction

/-!
The tags of one vocabulary. What a name stands for in a vocabulary is told by the numbers and names
of its own tags. Each write to a vocabulary changes its tags in one way, and leaves alone those of
all others.
-/

set_option autoImplicit false
set_option relaxedAutoImplicit false

namespace ContentImport.Store

namespace Repository

variable {r r' : Repository} {vocabularyId name : String}

/-- The names of the tags of a vocabulary, by their numbers. -/
def tagNames (r : Repository) (vocabularyId : String) : List String :=
  (r.tagsOf vocabularyId).map (·.2.name)

theorem tagsOf_ascending (ascending : r.tags.Ascending) (vocabularyId : String) :
    Table.Ascending (r.tagsOf vocabularyId) :=
  List.Pairwise.filter _ ascending

private theorem tagId?_eq (r : Repository) (vocabularyId name : String) :
    r.tagId? vocabularyId name =
      (((r.tagsOf vocabularyId).map fun e => (e.1, e.2.name)).find? (·.2 = name)).map (·.1) := by
  rw [tagId?, tagsOf, List.find?_map, List.find?_filter, Option.map_map]
  simp only [Function.comp_def, decide_eq_true_eq, Bool.decide_and]

theorem tagId?_congr
    (same : (r'.tagsOf vocabularyId).map (fun e => (e.1, e.2.name)) =
      (r.tagsOf vocabularyId).map fun e => (e.1, e.2.name)) :
    r'.tagId? vocabularyId = r.tagId? vocabularyId := by
  funext name
  rw [tagId?_eq, tagId?_eq, same]

theorem tagId?_isSome_iff :
    (r.tagId? vocabularyId name).isSome = true ↔ name ∈ r.tagNames vocabularyId := by
  rw [tagId?_eq, Option.isSome_map, List.find?_isSome]
  simp [tagNames]

theorem tagId?_eq_some_iff_of_nodup (distinct : (r.tagNames vocabularyId).Nodup) {id : EntityId} :
    r.tagId? vocabularyId name = some id ↔
      ∃ tag, (id, tag) ∈ r.tagsOf vocabularyId ∧ tag.name = name := by
  have search : r.tagId? vocabularyId name =
      ((r.tagsOf vocabularyId).find? (·.2.name = name)).map (·.1) := by
    rw [tagId?_eq, List.find?_map, Option.map_map]
    rfl
  simp only [search, Option.map_eq_some_iff, find?_eq_some_iff_of_nodup distinct]
  constructor
  · rintro ⟨⟨id, tag⟩, found, rfl⟩
    exact ⟨tag, found⟩
  · rintro ⟨tag, found⟩
    exact ⟨(id, tag), found, rfl⟩

theorem tagId?_eq_some_iff_of_mem (distinct : (r.tagNames vocabularyId).Nodup)
    (ascending : Table.Ascending (r.tagsOf vocabularyId)) {e : EntityId × StoredTag}
    (member : e ∈ r.tagsOf vocabularyId) :
    r.tagId? vocabularyId name = some e.1 ↔ e.2.name = name := by
  rw [tagId?_eq_some_iff_of_nodup distinct]
  constructor
  · rintro ⟨tag, stored, rfl⟩
    rw [← ascending.eq_of_mem stored member rfl]
  · exact fun named => ⟨e.2, member, named⟩

private theorem tagsOf_of_tagsOutside {scope : Scope}
    (outside : scope.vocabularies vocabularyId = false) :
    (r.tagsOutside scope).filter (·.2.vocabularyId = vocabularyId) = r.tagsOf vocabularyId := by
  unfold tagsOutside tagsOf
  rw [List.filter_filter]
  refine List.filter_congr ?_
  intro e _
  by_cases same : e.2.vocabularyId = vocabularyId <;> simp [same, outside]

end Repository

variable {s t : Store} {vocabularyId : String}

namespace WellFormed

theorem tagsOf_edits (wf : s.WellFormed) {scope : Scope} (steps : Edits scope s t)
    (outside : scope.vocabularies vocabularyId = false) :
    t.repository.tagsOf vocabularyId = s.repository.tagsOf vocabularyId := by
  rw [← Repository.tagsOf_of_tagsOutside outside, (wf.outside_edits steps).tags,
    Repository.tagsOf_of_tagsOutside outside]

theorem tagsOf_of_missing (wf : s.WellFormed)
    (missing : Table.holds s.repository.vocabularies vocabularyId = false) :
    s.repository.tagsOf vocabularyId = [] := by
  refine List.filter_eq_nil_iff.mpr fun e member same => ?_
  have housed := wf.consistent.tagsHoused e member
  rw [of_decide_eq_true same, missing] at housed
  cases housed

theorem tagsOf_createVocabulary (wf : s.WellFormed) (id name : String) :
    (s.createVocabulary id name).repository.tagsOf id =
      if s.overwrite then [] else s.repository.tagsOf id := by
  cases overwrites : s.overwrite with
  | true =>
    unfold Repository.tagsOf
    rw [wf.createVocabulary_tags overwrites, List.filter_filter]
    refine List.filter_eq_nil_iff.mpr fun e _ => ?_
    by_cases same : e.2.vocabularyId = id <;> simp [same]
  | false =>
    unfold createVocabulary
    rw [overwrites]
    split <;> rfl

theorem tagNames_createVocabulary (wf : s.WellFormed) (id name : String) :
    (s.createVocabulary id name).repository.tagNames id =
      if s.overwrite then [] else s.repository.tagNames id := by
  rw [Repository.tagNames, wf.tagsOf_createVocabulary, apply_ite (List.map _)]
  rfl

theorem tagsOf_addTag (wf : s.WellFormed) (vocabularyId : String) {name : String}
    (named : name ≠ "") :
    (s.addTag vocabularyId name).repository.tagsOf vocabularyId =
      s.repository.tagsOf vocabularyId ++ [(s.lastId + 1, ⟨vocabularyId, name, []⟩)] := by
  have put : s.addTag vocabularyId name = s.putTag vocabularyId name := if_neg named
  rw [put, wf.putTag_eq]
  unfold Repository.tagsOf
  rw [List.filter_append, List.filter_cons_of_pos (by simp), List.filter_nil]

end WellFormed

/-! ## Parents -/

/-- Whether a link gives parents to the tag of a number, when names are found in a given way. -/
def linksTo (find : String → Option EntityId) (link : TagParents) (id : EntityId) : Bool :=
  !link.parents.isEmpty && find link.name = some id

/-- The parents that links leave a tag with: those found of the last link to it. -/
def linkedParents (find : String → Option EntityId) (links : List TagParents)
    (e : EntityId × StoredTag) : List EntityId :=
  match (links.filter (linksTo find · e.1)).getLast? with
  | some link => link.parents.filterMap find
  | none => e.2.parents

private theorem linkedParents_concat (find : String → Option EntityId) (links : List TagParents)
    (link : TagParents) (e : EntityId × StoredTag) :
    linkedParents find (links ++ [link]) e =
      if linksTo find link e.1 then link.parents.filterMap find
      else linkedParents find links e := by
  unfold linkedParents
  rw [List.filter_append, List.filter_singleton]
  cases linksTo find link e.1 <;> simp

private theorem tagsOf_linkParents (s : Store) (vocabularyId : String) (link : TagParents) :
    let find := s.repository.tagId? vocabularyId
    (linkParents vocabularyId s link).repository.tagsOf vocabularyId =
      (s.repository.tagsOf vocabularyId).map fun e =>
        (e.1, { e.2 with
          parents := if linksTo find link e.1 then link.parents.filterMap find
            else e.2.parents }) := by
  intro find
  unfold linkParents
  cases without : link.parents.isEmpty with
  | true => simp [linksTo, without]
  | false =>
    cases found : s.repository.tagId? vocabularyId link.name with
    | none => simp [linksTo, find, found]
    | some id =>
      simp only [Bool.false_eq_true, if_false, Repository.tagsOf, Table.adjust, List.filter_map]
      have vocabulary : ∀ e : EntityId × StoredTag, ∀ parents : List EntityId,
          (if e.1 = id then (e.1, { e.2 with parents }) else e).2.vocabularyId =
            e.2.vocabularyId := by
        intro e parents
        split <;> rfl
      simp only [Function.comp_def, vocabulary]
      refine List.map_congr_left fun e _ => ?_
      by_cases hit : e.1 = id
      · simp [linksTo, find, without, found, hit]
      · simp [linksTo, find, found, hit, Ne.symm hit]

private theorem tagId?_linkParents (s : Store) (vocabularyId : String) (link : TagParents) :
    (linkParents vocabularyId s link).repository.tagId? vocabularyId =
      s.repository.tagId? vocabularyId := by
  refine Repository.tagId?_congr ?_
  rw [tagsOf_linkParents, List.map_map]
  rfl

/-- Links change nothing about the tags of a vocabulary but their parents, and no link changes what
another one finds. -/
theorem setTagParents_tags (s : Store) (vocabularyId : String) (links : List TagParents) :
    let find := s.repository.tagId? vocabularyId
    let linked := (s.setTagParents vocabularyId links).repository
    (linked.tagsOf vocabularyId = (s.repository.tagsOf vocabularyId).map fun e =>
        (e.1, { e.2 with parents := linkedParents find links e })) ∧
      linked.tagId? vocabularyId = find := by
  intro find linked
  induction links using List.reverseRecOn with
  | nil => exact ⟨(List.map_id _).symm, rfl⟩
  | append_singleton links link ih =>
    obtain ⟨tags, names⟩ := ih
    have last : linked =
        (linkParents vocabularyId (s.setTagParents vocabularyId links) link).repository := by
      simp [linked, setTagParents, List.foldl_append]
    rw [last, tagId?_linkParents, tagsOf_linkParents, names, tags, List.map_map]
    refine ⟨List.map_congr_left fun e _ => ?_, rfl⟩
    rw [linkedParents_concat, Function.comp_apply]

end ContentImport.Store
