import ContentImport.Proofs.Import.Duplicates
import ContentImport.Proofs.Store.Vocabulary

/-!
Vocabularies of a source. The tags of a record are created before any parent is looked up, so a
record can name parents in any order. A record for a vocabulary that has tags already adds to them,
or replaces them all when the store overwrites, also when they come from a record before it.
-/

set_option autoImplicit false
set_option relaxedAutoImplicit false

namespace ContentImport

open ContentImport.Store

/-! ## Records -/

namespace VocabularyRecord

/-- The names of the tags that have one, in the order in which they are listed. -/
def tagNames (v : VocabularyRecord) : List String :=
  (v.tags.map (·.name)).filter (· ≠ "")

/-- The names of the parents of a tag: those that the last of its entries with parents lists. -/
def parentNames (v : VocabularyRecord) (name : String) : List String :=
  match (v.tags.filter fun tag => !tag.parentNames.isEmpty && tag.name = name).getLast? with
  | some tag => tag.parentNames
  | none => []

/-- A vocabulary that has the tags of a record: one of each name, numbered by first mention, with
the parents of that name that are tags themselves. -/
structure StoredIn (v : VocabularyRecord) (r : Repository) : Prop where
  names : r.tagNames v.vocabularyId = Distinct.ofList v.tagNames
  ascending : Table.Ascending (r.tagsOf v.vocabularyId)
  found : ∀ name id, r.tagId? v.vocabularyId name = some id ↔
    ∃ tag, (id, tag) ∈ r.tagsOf v.vocabularyId ∧ tag.name = name
  parents : ∀ e ∈ r.tagsOf v.vocabularyId,
    e.2.parents = (v.parentNames e.2.name).filterMap (r.tagId? v.vocabularyId)

private theorem StoredIn.congr {v : VocabularyRecord} {r r' : Repository} (stored : v.StoredIn r)
    (same : r'.tagsOf v.vocabularyId = r.tagsOf v.vocabularyId) : v.StoredIn r' := by
  have finds : r'.tagId? v.vocabularyId = r.tagId? v.vocabularyId :=
    Repository.tagId?_congr (congrArg _ same)
  refine ⟨?_, ?_, ?_, ?_⟩
  · rw [Repository.tagNames, same]
    exact stored.names
  · rw [same]
    exact stored.ascending
  · rw [same, finds]
    exact stored.found
  · rw [same, finds]
    exact stored.parents

private theorem linkedParents_eq (v : VocabularyRecord) {find : String → Option EntityId}
    {e : EntityId × StoredTag} (found : ∀ name, find name = some e.1 ↔ e.2.name = name) :
    linkedParents find v.tagParents e =
      if v.parentNames e.2.name = [] then e.2.parents
      else (v.parentNames e.2.name).filterMap find := by
  have links : v.tagParents.filter (linksTo find · e.1) =
      (v.tags.filter fun tag => !tag.parentNames.isEmpty && tag.name = e.2.name).map fun tag =>
        ⟨tag.name, tag.parentNames⟩ := by
    unfold tagParents
    rw [List.filter_map, List.filter_filter]
    refine congrArg _ (List.filter_congr fun tag _ => ?_)
    have named : decide (find tag.name = some e.1) = decide (tag.name = e.2.name) :=
      decide_eq_decide.mpr ((found tag.name).trans eq_comm)
    rw [Function.comp_apply, linksTo, named]
    cases tag.parentNames.isEmpty <;> simp
  unfold linkedParents parentNames
  rw [links, List.getLast?_map]
  cases last :
      (v.tags.filter fun tag => !tag.parentNames.isEmpty && tag.name = e.2.name).getLast? with
  | none => rfl
  | some tag =>
    have listed := (List.mem_filter.mp (List.mem_of_getLast? last)).2
    have some_parent : tag.parentNames ≠ [] := by
      rintro none
      simp [none] at listed
    exact (if_neg some_parent).symm

end VocabularyRecord

namespace Store

variable {s : Store}

/-! ## One vocabulary -/

/-- The first pass over a record, which creates its vocabulary and its tags. -/
def firstPass (s : Store) (v : VocabularyRecord) : Store :=
  (s.createVocabulary v.vocabularyId v.name).addTags v.vocabularyId v.tags

private theorem importVocabulary_tags (s : Store) (v : VocabularyRecord) :
    let passed := (s.firstPass v).repository
    let imported := (s.importVocabulary v).repository
    (imported.tagsOf v.vocabularyId = (passed.tagsOf v.vocabularyId).map fun e =>
        (e.1, { e.2 with
          parents := linkedParents (passed.tagId? v.vocabularyId) v.tagParents e })) ∧
      imported.tagId? v.vocabularyId = passed.tagId? v.vocabularyId :=
  setTagParents_tags (s.firstPass v) v.vocabularyId v.tagParents

namespace WellFormed

private theorem addTags_tags (wf : s.WellFormed) {vocabularyId : String} (tags : List TagRecord)
    (housed : Table.holds s.repository.vocabularies vocabularyId = true) :
    let added := (s.addTags vocabularyId tags).repository
    (added.tagNames vocabularyId = Distinct.addAll (s.repository.tagNames vocabularyId)
        ((tags.map (·.name)).filter (· ≠ ""))) ∧
      ∃ created, added.tagsOf vocabularyId = s.repository.tagsOf vocabularyId ++ created ∧
        ∀ e ∈ created, e.2.parents = [] := by
  unfold addTags
  induction tags generalizing s with
  | nil => exact ⟨rfl, [], (List.append_nil _).symm, fun e member => nomatch member⟩
  | cons tag tags ih =>
    rw [List.foldl_cons, List.map_cons]
    -- Nothing is created for a name that is there already, nor for an empty one.
    by_cases held : (s.repository.tagId? vocabularyId tag.name).isSome = true
    · rw [if_pos held]
      obtain ⟨names, behind⟩ := ih wf housed
      refine ⟨names.trans ?_, behind⟩
      by_cases unnamed : tag.name = ""
      · simp [unnamed]
      · have listed := Repository.tagId?_isSome_iff.mp held
        rw [List.filter_cons_of_pos (by simpa using unnamed)]
        simp [Distinct.addAll, Distinct.add, listed]
    · rw [if_neg held]
      by_cases unnamed : tag.name = ""
      · have same : s.addTag vocabularyId tag.name = s := if_pos unnamed
        rw [same, List.filter_cons_of_neg (by simpa using unnamed)]
        exact ih wf housed
      · have step : Edits .everything s (s.addTag vocabularyId tag.name) :=
          addTag_edits s tag.name rfl housed
        obtain ⟨names, created, behind, parentless⟩ := ih (wf.edits step) (by simpa using housed)
        have absent : tag.name ∉ s.repository.tagNames vocabularyId :=
          fun listed => held (Repository.tagId?_isSome_iff.mpr listed)
        have put := wf.tagsOf_addTag vocabularyId unnamed
        rw [List.filter_cons_of_pos (by simpa using unnamed)]
        refine ⟨names.trans ?_, (s.lastId + 1, ⟨vocabularyId, tag.name, []⟩) :: created, ?_, ?_⟩
        · rw [Repository.tagNames, put, List.map_append]
          simp only [Distinct.addAll, Distinct.add, List.foldl_cons, if_neg absent]
          rfl
        · rw [behind, put, List.append_assoc, List.singleton_append]
        · exact List.forall_mem_cons.mpr ⟨rfl, parentless⟩

theorem firstPass_tags (wf : s.WellFormed) (v : VocabularyRecord) :
    let passed := (s.firstPass v).repository
    (passed.tagNames v.vocabularyId =
        Distinct.addAll (if s.overwrite then [] else s.repository.tagNames v.vocabularyId)
          v.tagNames) ∧
      ∃ created, passed.tagsOf v.vocabularyId =
          (if s.overwrite then [] else s.repository.tagsOf v.vocabularyId) ++ created ∧
        ∀ e ∈ created, e.2.parents = [] := by
  intro passed
  have creation : Edits .everything s (s.createVocabulary v.vocabularyId v.name) :=
    createVocabulary_edits s v.name rfl
  have housed := createVocabulary_holds s v.vocabularyId v.name
  have added := (wf.edits creation).addTags_tags v.tags housed
  rwa [wf.tagNames_createVocabulary, wf.tagsOf_createVocabulary] at added

theorem tagNames_importVocabulary (wf : s.WellFormed) (v : VocabularyRecord) :
    (s.importVocabulary v).repository.tagNames v.vocabularyId =
      Distinct.addAll (if s.overwrite then [] else s.repository.tagNames v.vocabularyId)
        v.tagNames := by
  rw [Repository.tagNames, (importVocabulary_tags s v).1, List.map_map, ← (wf.firstPass_tags v).1]
  rfl

theorem importVocabulary_parents (wf : s.WellFormed) {v : VocabularyRecord}
    (distinct : ((s.importVocabulary v).repository.tagNames v.vocabularyId).Nodup) :
    let passed := (s.firstPass v).repository
    let imported := (s.importVocabulary v).repository
    ∀ e ∈ imported.tagsOf v.vocabularyId, ∃ unlinked ∈ passed.tagsOf v.vocabularyId,
      unlinked.2.name = e.2.name ∧
        e.2.parents = if v.parentNames e.2.name = [] then unlinked.2.parents
          else (v.parentNames e.2.name).filterMap (imported.tagId? v.vocabularyId) := by
  intro passed imported e member
  have edits : Edits .everything s (s.importVocabulary v) := importVocabulary_edits s rfl
  have ascending := Repository.tagsOf_ascending (wf.edits edits).consistent.tagsAscending
    v.vocabularyId
  have own : ∀ name, imported.tagId? v.vocabularyId name = some e.1 ↔ e.2.name = name :=
    fun _ => Repository.tagId?_eq_some_iff_of_mem distinct ascending member
  obtain ⟨linked, finds⟩ := importVocabulary_tags s v
  rw [linked] at member
  obtain ⟨unlinked, stored, rfl⟩ := List.mem_map.mp member
  refine ⟨unlinked, stored, rfl, ?_⟩
  rw [finds] at own
  simp only [imported, finds]
  exact v.linkedParents_eq (e := unlinked) own

private theorem importVocabulary_storedIn (wf : s.WellFormed) {v : VocabularyRecord}
    (replaced : s.overwrite = true ∨ s.repository.tagsOf v.vocabularyId = []) :
    v.StoredIn (s.importVocabulary v).repository := by
  have names : (s.importVocabulary v).repository.tagNames v.vocabularyId =
      Distinct.ofList v.tagNames := by
    rw [wf.tagNames_importVocabulary]
    rcases replaced with overwrites | bare
    · rw [if_pos overwrites, Distinct.ofList]
    · rw [Repository.tagNames, bare, List.map_nil, ite_self, Distinct.ofList]
  have distinct : ((s.importVocabulary v).repository.tagNames v.vocabularyId).Nodup :=
    names ▸ Distinct.nodup_ofList _
  have edits : Edits .everything s (s.importVocabulary v) := importVocabulary_edits s rfl
  have ascending := Repository.tagsOf_ascending (wf.edits edits).consistent.tagsAscending
    v.vocabularyId
  refine ⟨names, ascending, fun _ _ => Repository.tagId?_eq_some_iff_of_nodup distinct,
    fun e member => ?_⟩
  obtain ⟨unlinked, stored, -, parents⟩ := wf.importVocabulary_parents distinct e member
  have parentless : unlinked.2.parents = [] := by
    obtain ⟨-, created, behind, without⟩ := wf.firstPass_tags v
    have bare : (if s.overwrite then [] else s.repository.tagsOf v.vocabularyId) = [] := by
      rcases replaced with overwrites | bare
      · exact if_pos overwrites
      · rw [bare, ite_self]
    rw [behind, bare, List.nil_append] at stored
    exact without unlinked stored
  rw [parents, parentless]
  split
  · next unlisted => rw [unlisted, List.filterMap_nil]
  · rfl

/-! ## Lists of vocabularies -/

variable {vocabularies : List VocabularyRecord}

theorem tagsOf_importVocabularies (wf : s.WellFormed) {id : String}
    (unlisted : id ∉ vocabularies.map (·.vocabularyId)) :
    (s.importVocabularies vocabularies).repository.tagsOf id = s.repository.tagsOf id := by
  let scope : Scope := ⟨fun other => other ∈ vocabularies.map (·.vocabularyId), fun _ => false⟩
  have steps : Edits scope s (s.importVocabularies vocabularies) :=
    importVocabularies_edits s vocabularies fun v listed =>
      decide_eq_true (List.mem_map_of_mem listed)
  exact wf.tagsOf_edits steps (decide_eq_false unlisted)

private theorem importVocabularies_storedIn (wf : s.WellFormed)
    (distinct : (vocabularies.map (·.vocabularyId)).Nodup)
    (replaced : ∀ v ∈ vocabularies,
      s.overwrite = true ∨ s.repository.tagsOf v.vocabularyId = []) :
    ∀ v ∈ vocabularies, v.StoredIn (s.importVocabularies vocabularies).repository := by
  induction vocabularies generalizing s with
  | nil => exact fun v listed => nomatch listed
  | cons v vocabularies ih =>
    obtain ⟨unlisted, distinct⟩ := List.nodup_cons.mp distinct
    obtain ⟨first, others⟩ := List.forall_mem_cons.mp replaced
    have edits : Edits .everything s (s.importVocabulary v) := importVocabulary_edits s rfl
    have wf' := wf.edits edits
    refine List.forall_mem_cons.mpr ⟨?_, ih wf' distinct fun w listed => ?_⟩
    · exact (wf.importVocabulary_storedIn first).congr (wf'.tagsOf_importVocabularies unlisted)
    · have other : w.vocabularyId ∉ [v].map (·.vocabularyId) := by
        intro same
        exact unlisted (List.mem_singleton.mp same ▸ List.mem_map_of_mem listed)
      have same : (s.importVocabulary v).repository.tagsOf w.vocabularyId =
          s.repository.tagsOf w.vocabularyId := wf.tagsOf_importVocabularies other
      rw [same, (wf.grows edits).overwrite]
      exact others w listed

private theorem tagNames_importVocabularies_concat (wf : s.WellFormed)
    (vocabularies : List VocabularyRecord) (v : VocabularyRecord) (id : String) :
    let before := (s.importVocabularies vocabularies).repository.tagNames id
    (s.importVocabularies (vocabularies ++ [v])).repository.tagNames id =
      if v.vocabularyId = id then Distinct.addAll (if s.overwrite then [] else before) v.tagNames
      else before := by
  intro before
  have edits : Edits .everything s (s.importVocabularies vocabularies) :=
    importVocabularies_edits s vocabularies fun _ _ => rfl
  have last : s.importVocabularies (vocabularies ++ [v]) =
      (s.importVocabularies vocabularies).importVocabulary v := by
    simp [importVocabularies, List.foldl_append]
  rw [last]
  split
  · next same =>
    subst same
    rw [(wf.edits edits).tagNames_importVocabulary, (wf.grows edits).overwrite]
  · next other =>
    have unlisted : id ∉ [v].map (·.vocabularyId) := by simpa using Ne.symm other
    exact congrArg _ ((wf.edits edits).tagsOf_importVocabularies unlisted)

theorem tagNames_importVocabularies_of_keeps (wf : s.WellFormed) (keeps : s.overwrite = false)
    (vocabularies : List VocabularyRecord) (id : String) :
    (s.importVocabularies vocabularies).repository.tagNames id =
      Distinct.addAll (s.repository.tagNames id)
        ((vocabularies.filter (·.vocabularyId = id)).flatMap (·.tagNames)) := by
  induction vocabularies using List.reverseRecOn with
  | nil => rfl
  | append_singleton vocabularies v ih =>
    rw [wf.tagNames_importVocabularies_concat, keeps, ih, List.filter_append,
      List.filter_singleton]
    by_cases same : v.vocabularyId = id
    · simp [same, Distinct.addAll]
    · simp [same]

private theorem tagNames_importVocabularies_of_overwrites (wf : s.WellFormed)
    (overwrites : s.overwrite = true) (vocabularies : List VocabularyRecord) (id : String) :
    (s.importVocabularies vocabularies).repository.tagNames id =
      match (vocabularies.filter (·.vocabularyId = id)).getLast? with
      | some last => Distinct.ofList last.tagNames
      | none => s.repository.tagNames id := by
  induction vocabularies using List.reverseRecOn with
  | nil => rfl
  | append_singleton vocabularies v ih =>
    rw [wf.tagNames_importVocabularies_concat, overwrites, ih, List.filter_append,
      List.filter_singleton]
    by_cases same : v.vocabularyId = id
    · simp [same, Distinct.ofList]
    · simp [same]

end WellFormed

/-- Vocabularies that are new or overwritten, each listed once, have the tags that are listed for
them, and parents are found wherever they are listed. Other vocabularies keep their tags. -/
theorem vocabularies_stored_as_listed (reachable : Reachable s)
    {vocabularies : List VocabularyRecord}
    (distinct : (vocabularies.map (·.vocabularyId)).Nodup)
    (replaced : ∀ v ∈ vocabularies,
      Table.holds s.repository.vocabularies v.vocabularyId = true → s.overwrite = true) :
    let imported := s.importVocabularies vocabularies
    s.createVocabularies vocabularies = .ok imported ∧
      (∀ v ∈ vocabularies, v.StoredIn imported.repository) ∧
      ∀ id ∉ vocabularies.map (·.vocabularyId),
        imported.repository.tagsOf id = s.repository.tagsOf id := by
  intro imported
  have wf := reachable.sound.wellFormed
  refine ⟨createVocabularies_eq vocabularies, ?_, fun id => wf.tagsOf_importVocabularies⟩
  refine wf.importVocabularies_storedIn distinct fun v listed => ?_
  cases known : Table.holds s.repository.vocabularies v.vocabularyId with
  | true => exact .inl (replaced v listed known)
  | false => exact .inr (wf.tagsOf_of_missing known)

namespace Palette

def shapes : VocabularyRecord :=
  ⟨"shape", "Shapes", [⟨"shape", "Square", ["Round"]⟩, ⟨"shape", "Round", []⟩]⟩

def oldColors : VocabularyRecord :=
  ⟨"color", "Colors", [⟨"color", "Blue", []⟩]⟩

/-- Crimson comes before its parents, one of which is no color, and is listed again with others. -/
def colors : VocabularyRecord :=
  ⟨"color", "Colors",
    [⟨"color", "Crimson", ["Red"]⟩, ⟨"color", "", ["Red"]⟩,
      ⟨"color", "Crimson", ["Dark red", "Round", "Red"]⟩, ⟨"color", "Red", []⟩,
      ⟨"color", "Crimson", []⟩, ⟨"color", "Dark red", ["Red"]⟩]⟩

end Palette

/-- A store that overwrites, with shapes and with a color that is not listed any more. -/
def palette : Store :=
  (Store.empty true []).importVocabularies [Palette.shapes, Palette.oldColors]

theorem vocabularies_stored_as_listed_palette :
    let imported := (palette.importVocabularies [Palette.colors]).repository
    imported.tagNames "color" = ["Crimson", "Red", "Dark red"] ∧
      (∀ e ∈ imported.tagsOf "color", e.2.name = "Crimson" →
        e.2.parents = ["Dark red", "Round", "Red"].filterMap (imported.tagId? "color")) ∧
      imported.tagsOf "shape" = palette.repository.tagsOf "shape" := by
  intro imported
  have reachable : Reachable palette := (Reachable.empty true []).importVocabularies _
  have distinct : ([Palette.colors].map (·.vocabularyId)).Nodup := by decide
  obtain ⟨-, stored, others⟩ :=
    vocabularies_stored_as_listed reachable distinct (by decide +kernel)
  have colors := stored Palette.colors List.mem_cons_self
  refine ⟨colors.names, fun e member named => ?_, others "shape" (by decide)⟩
  rw [colors.parents e member, named]
  rfl

/-- Importing vocabularies does not fail. Without overwriting no tag is lost. With overwriting a
record takes away the tags of its vocabulary, also those of records before it in the same list, so
all tags are stored exactly when the last record of each vocabulary has those of all others. -/
theorem tags_lost_to_later_records (reachable : Reachable s)
    (vocabularies : List VocabularyRecord) :
    let imported := s.importVocabularies vocabularies
    let records := fun id => vocabularies.filter (·.vocabularyId = id)
    s.createVocabularies vocabularies = .ok imported ∧
      (s.overwrite = false → ∀ id, imported.repository.tagNames id =
        Distinct.addAll (s.repository.tagNames id) ((records id).flatMap (·.tagNames))) ∧
      (s.overwrite = true → ∀ id, imported.repository.tagNames id =
        match (records id).getLast? with
        | some last => Distinct.ofList last.tagNames
        | none => s.repository.tagNames id) ∧
      ((∀ v ∈ vocabularies, ∀ tag ∈ v.tags, tag.name ≠ "" →
          tag.name ∈ imported.repository.tagNames v.vocabularyId) ↔
        s.overwrite = false ∨ ∀ v ∈ vocabularies, ∀ last ∈ (records v.vocabularyId).getLast?,
          v.tagNames ⊆ last.tagNames) := by
  intro imported records
  have wf := reachable.sound.wellFormed
  have kept := fun keeps => wf.tagNames_importVocabularies_of_keeps keeps vocabularies
  have replaced := fun overwrites =>
    wf.tagNames_importVocabularies_of_overwrites overwrites vocabularies
  refine ⟨createVocabularies_eq vocabularies, kept, replaced, ?_⟩
  have named : (∀ v ∈ vocabularies, ∀ tag ∈ v.tags, tag.name ≠ "" →
      tag.name ∈ imported.repository.tagNames v.vocabularyId) ↔
        ∀ v ∈ vocabularies, v.tagNames ⊆ imported.repository.tagNames v.vocabularyId := by
    refine forall₂_congr fun v _ => ?_
    simp [VocabularyRecord.tagNames, List.subset_def]
  rw [named]
  cases overwrites : s.overwrite with
  | false =>
    refine iff_of_true (fun v listed name member => ?_) (.inl rfl)
    rw [kept overwrites]
    refine Distinct.mem_addAll.mpr (.inr (List.mem_flatMap.mpr ⟨v, ?_, member⟩))
    exact List.mem_filter.mpr ⟨listed, by simp⟩
  | true =>
    rw [or_iff_right (Ne.symm Bool.false_ne_true)]
    refine forall₂_congr fun v listed => ?_
    have among : v ∈ records v.vocabularyId := List.mem_filter.mpr ⟨listed, by simp⟩
    obtain ⟨last, latest⟩ :=
      Option.isSome_iff_exists.mp (List.getLast?_isSome.mpr (List.ne_nil_of_mem among))
    have names : imported.repository.tagNames v.vocabularyId = Distinct.ofList last.tagNames := by
      rw [replaced overwrites, latest]
    rw [names, latest]
    simp [List.subset_def]

namespace Palette

def reds : VocabularyRecord :=
  ⟨"color", "Color", [⟨"color", "Red", []⟩]⟩

/-- Another record for the vocabulary, as a second class of its local name gives. -/
def blues : VocabularyRecord :=
  ⟨"color", "Color", [⟨"color", "Blue", []⟩]⟩

end Palette

open Palette in
/-- The second record takes away the tag of the first. -/
theorem tags_lost_to_later_records_reds :
    let imported := (Store.empty true []).importVocabularies [reds, blues]
    (Store.empty true []).createVocabularies [reds, blues] = .ok imported ∧
      "Red" ∉ imported.repository.tagNames "color" := by
  intro imported
  obtain ⟨created, -, replaced, -⟩ :=
    tags_lost_to_later_records (Reachable.empty true []) [reds, blues]
  refine ⟨created, ?_⟩
  rw [replaced rfl]
  decide +kernel

end Store

end ContentImport
