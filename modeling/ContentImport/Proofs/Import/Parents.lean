import ContentImport.Proofs.Import.Vocabularies

/-!
Parents of tags that are listed again. A store that does not overwrite keeps the tags that it has,
and a record that lists parents for one of them replaces those that it had. A tag listed without
parents is not linked at all, so it keeps whatever parents it had.
-/

set_option autoImplicit false
set_option relaxedAutoImplicit false

namespace ContentImport

open ContentImport.Store

namespace Store.Repository

variable {r r' : Repository} {vocabularyId name : String}

def parentsOf? (r : Repository) (vocabularyId name : String) : Option (List EntityId) :=
  ((r.tagsOf vocabularyId).find? (·.2.name = name)).map (·.2.parents)

private theorem parentsOf?_congr (same : r'.tagsOf vocabularyId = r.tagsOf vocabularyId) :
    r'.parentsOf? vocabularyId = r.parentsOf? vocabularyId := by
  funext name
  rw [parentsOf?, parentsOf?, same]

private theorem parentsOf?_of_not_mem (absent : name ∉ r.tagNames vocabularyId) :
    r.parentsOf? vocabularyId name = none := by
  rw [parentsOf?, Option.map_eq_none_iff, List.find?_eq_none]
  intro e member named
  exact absent (List.mem_map.mpr ⟨e, member, of_decide_eq_true named⟩)

private theorem parentsOf?_of_mem (distinct : (r.tagNames vocabularyId).Nodup)
    {e : EntityId × StoredTag}
    (member : e ∈ r.tagsOf vocabularyId) :
    r.parentsOf? vocabularyId e.2.name = some e.2.parents := by
  rw [parentsOf?, (find?_eq_some_iff_of_nodup distinct).mpr ⟨member, rfl⟩, Option.map_some]

private theorem mem_filterMap_tagId?_iff (distinct : (r.tagNames vocabularyId).Nodup)
    {names : List String} {id : EntityId} :
    id ∈ names.filterMap (r.tagId? vocabularyId) ↔
      ∃ tag, (id, tag) ∈ r.tagsOf vocabularyId ∧ tag.name ∈ names := by
  simp only [List.mem_filterMap, tagId?_eq_some_iff_of_nodup distinct]
  constructor
  · rintro ⟨name, listed, tag, stored, rfl⟩
    exact ⟨tag, stored, listed⟩
  · rintro ⟨tag, stored, listed⟩
    exact ⟨tag.name, listed, tag, stored, rfl⟩

end Store.Repository

namespace VocabularyRecord

private theorem parentNames_of_nodup {v : VocabularyRecord} (distinct : (v.tags.map (·.name)).Nodup)
    {tag : TagRecord} (listed : tag ∈ v.tags) : v.parentNames tag.name = tag.parentNames := by
  unfold parentNames
  cases last : (v.tags.filter fun other =>
      !other.parentNames.isEmpty && other.name = tag.name).getLast? with
  | none =>
    have unlinked := List.filter_eq_nil_iff.mp (List.getLast?_eq_none_iff.mp last) tag listed
    simpa using unlinked
  | some other =>
    obtain ⟨among, link⟩ := List.mem_filter.mp (List.mem_of_getLast? last)
    obtain ⟨-, named⟩ := Bool.and_eq_true_iff.mp link
    have same := List.inj_on_of_nodup_map distinct among listed (of_decide_eq_true named)
    exact congrArg TagRecord.parentNames same

/-- A vocabulary that the tags of a record have been added to. Those for which the record lists
parents have these alone, as far as they are tags themselves; the others have the parents that
they had, which are none for a new one. -/
structure AddedTo (v : VocabularyRecord) (before after : Repository) : Prop where
  names : after.tagNames v.vocabularyId =
    Distinct.addAll (before.tagNames v.vocabularyId) v.tagNames
  parents : ∀ e ∈ after.tagsOf v.vocabularyId, e.2.parents =
    if v.parentNames e.2.name = [] then (before.parentsOf? v.vocabularyId e.2.name).getD []
    else (v.parentNames e.2.name).filterMap (after.tagId? v.vocabularyId)

private theorem AddedTo.congr {v : VocabularyRecord} {before before' after after' : Repository}
    (added : v.AddedTo before after)
    (former : before'.tagsOf v.vocabularyId = before.tagsOf v.vocabularyId)
    (latter : after'.tagsOf v.vocabularyId = after.tagsOf v.vocabularyId) :
    v.AddedTo before' after' := by
  have finds : after'.tagId? v.vocabularyId = after.tagId? v.vocabularyId :=
    Repository.tagId?_congr (congrArg _ latter)
  refine ⟨?_, ?_⟩
  · rw [Repository.tagNames, Repository.tagNames, former, latter]
    exact added.names
  · rw [latter, finds, Repository.parentsOf?_congr former]
    exact added.parents

end VocabularyRecord

namespace Store

variable {s : Store} {vocabularies : List VocabularyRecord}

namespace WellFormed

private theorem importVocabulary_addedTo (wf : s.WellFormed) (keeps : s.overwrite = false)
    {v : VocabularyRecord} (single : (s.repository.tagNames v.vocabularyId).Nodup) :
    v.AddedTo s.repository (s.importVocabulary v).repository := by
  have names := wf.tagNames_importVocabulary v
  rw [keeps, if_neg Bool.false_ne_true] at names
  have distinct : ((s.importVocabulary v).repository.tagNames v.vocabularyId).Nodup :=
    names ▸ Distinct.nodup_addAll single
  refine ⟨names, fun e member => ?_⟩
  obtain ⟨unlinked, stored, named, parents⟩ := wf.importVocabulary_parents distinct e member
  suffices former : unlinked.2.parents =
      (s.repository.parentsOf? v.vocabularyId e.2.name).getD [] by
    rw [parents, former]
  obtain ⟨passed, created, behind, parentless⟩ := wf.firstPass_tags v
  rw [keeps, if_neg Bool.false_ne_true] at passed behind
  rw [← named]
  rw [behind] at stored
  rcases List.mem_append.mp stored with old | new
  · rw [Repository.parentsOf?_of_mem single old, Option.getD_some]
  · -- The names of new tags are none of those that the vocabulary had.
    have apart : (s.repository.tagNames v.vocabularyId ++ created.map (·.2.name)).Nodup := by
      have all : (Distinct.addAll (s.repository.tagNames v.vocabularyId) v.tagNames).Nodup :=
        Distinct.nodup_addAll single
      rwa [← passed, Repository.tagNames, behind, List.map_append] at all
    have absent : unlinked.2.name ∉ s.repository.tagNames v.vocabularyId := fun held =>
      List.disjoint_of_nodup_append apart held (List.mem_map_of_mem new)
    rw [Repository.parentsOf?_of_not_mem absent, parentless unlinked new, Option.getD_none]

private theorem nodup_tagNames_importVocabularies (wf : s.WellFormed) (keeps : s.overwrite = false)
    {id : String} (single : (s.repository.tagNames id).Nodup)
    (vocabularies : List VocabularyRecord) :
    ((s.importVocabularies vocabularies).repository.tagNames id).Nodup := by
  rw [wf.tagNames_importVocabularies_of_keeps keeps]
  exact Distinct.nodup_addAll single

private theorem importVocabularies_addedTo (wf : s.WellFormed) (keeps : s.overwrite = false)
    (single : ∀ id, (s.repository.tagNames id).Nodup)
    (distinct : (vocabularies.map (·.vocabularyId)).Nodup) :
    ∀ v ∈ vocabularies,
      v.AddedTo s.repository (s.importVocabularies vocabularies).repository := by
  induction vocabularies using List.reverseRecOn with
  | nil => exact fun v listed => nomatch listed
  | append_singleton vocabularies last ih =>
    have edits : Edits .everything s (s.importVocabularies vocabularies) :=
      importVocabularies_edits s vocabularies fun _ _ => rfl
    have wf' := wf.edits edits
    have behind : s.importVocabularies (vocabularies ++ [last]) =
        (s.importVocabularies vocabularies).importVocabulary last := by
      simp [importVocabularies, List.foldl_append]
    rw [List.map_append, List.map_singleton] at distinct
    have unlisted : last.vocabularyId ∉ vocabularies.map (·.vocabularyId) := fun listed =>
      List.disjoint_of_nodup_append distinct listed (List.mem_singleton.mpr rfl)
    rw [behind]
    intro v listed
    rcases List.mem_append.mp listed with earlier | latest
    · have other : v.vocabularyId ∉ [last].map (·.vocabularyId) := by
        rw [List.map_singleton, List.mem_singleton]
        exact fun same => unlisted (same ▸ List.mem_map_of_mem earlier)
      have before := ih (distinct.sublist (List.sublist_append_left _ _)) v earlier
      exact before.congr rfl (wf'.tagsOf_importVocabularies other)
    · obtain rfl := List.mem_singleton.mp latest
      have same := wf.tagsOf_importVocabularies unlisted
      have single' :
          ((s.importVocabularies vocabularies).repository.tagNames v.vocabularyId).Nodup := by
        rw [Repository.tagNames, same]
        exact single v.vocabularyId
      have keeps' : (s.importVocabularies vocabularies).overwrite = false :=
        (wf.grows edits).overwrite.trans keeps
      exact (wf'.importVocabulary_addedTo keeps' single').congr same.symm rfl

end WellFormed

/-- Importing vocabularies does not fail. Without overwriting, a tag for which a record lists parents
has afterwards exactly the tags of its vocabulary that have one of the listed names, whatever
parents it had; one for which the record lists none has the parents that it had. -/
theorem parents_replaced_where_listed (reachable : Reachable s) (keeps : s.overwrite = false)
    (single : ∀ id, (s.repository.tagNames id).Nodup) (vocabularies : List VocabularyRecord)
    (distinct : (vocabularies.map (·.vocabularyId)).Nodup)
    (named : ∀ v ∈ vocabularies,
      (v.tags.map (·.name)).Nodup ∧ ∀ tag ∈ v.tags, tag.name ≠ "") :
    let imported := (s.importVocabularies vocabularies).repository
    s.createVocabularies vocabularies = .ok (s.importVocabularies vocabularies) ∧
      ∀ v ∈ vocabularies, ∀ tag ∈ v.tags, ∃ parents,
        imported.parentsOf? v.vocabularyId tag.name = some parents ∧
          (tag.parentNames ≠ [] →
            parents = tag.parentNames.filterMap (imported.tagId? v.vocabularyId) ∧
              ∀ id, id ∈ parents ↔ ∃ parent, (id, parent) ∈ imported.tagsOf v.vocabularyId ∧
                parent.name ∈ tag.parentNames) ∧
          (tag.parentNames = [] →
            parents = (s.repository.parentsOf? v.vocabularyId tag.name).getD []) := by
  intro imported
  have wf := reachable.sound.wellFormed
  refine ⟨createVocabularies_eq vocabularies, fun v listed tag among => ?_⟩
  obtain ⟨apart, nonempty⟩ := named v listed
  have added := wf.importVocabularies_addedTo keeps single distinct v listed
  have names : (imported.tagNames v.vocabularyId).Nodup :=
    wf.nodup_tagNames_importVocabularies keeps (single v.vocabularyId) vocabularies
  have member : tag.name ∈ imported.tagNames v.vocabularyId := by
    rw [added.names, Distinct.mem_addAll]
    exact .inr (List.mem_filter.mpr ⟨List.mem_map_of_mem among, by simpa using nonempty tag among⟩)
  obtain ⟨e, stored, sameName⟩ := List.mem_map.mp member
  have parents := added.parents e stored
  simp only [sameName, VocabularyRecord.parentNames_of_nodup apart among] at parents
  refine ⟨e.2.parents, sameName ▸ Repository.parentsOf?_of_mem names stored, ?_, ?_⟩
  · intro some_parent
    rw [if_neg some_parent] at parents
    exact ⟨parents, fun id => parents ▸ Repository.mem_filterMap_tagId?_iff names⟩
  · intro none
    rw [if_pos none] at parents
    exact parents

namespace Palette

/-- Pink is below Red, which is below Warm. -/
def warmColors : VocabularyRecord :=
  ⟨"color", "Colors",
    [⟨"color", "Red", ["Warm"]⟩, ⟨"color", "Warm", []⟩, ⟨"color", "Pink", ["Red"]⟩]⟩

/-- Red has other parents now, one of which is no color, and Pink is listed without any. -/
def brightColors : VocabularyRecord :=
  ⟨"color", "Colors",
    [⟨"color", "Red", ["Bright", "Loud"]⟩, ⟨"color", "Pink", []⟩, ⟨"color", "Bright", []⟩]⟩

end Palette

def warmPalette : Store :=
  (Store.empty false []).importVocabularies [Palette.warmColors]

private theorem warmPalette_reachable : Reachable warmPalette :=
  (Reachable.empty false []).importVocabularies _

private theorem nodup_tagNames_warmPalette (id : String) :
    (warmPalette.repository.tagNames id).Nodup :=
  (Reachable.empty false []).sound.wellFormed.nodup_tagNames_importVocabularies rfl
    List.nodup_nil _

theorem parents_replaced_where_listed_palette :
    let imported := (warmPalette.importVocabularies [Palette.brightColors]).repository
    warmPalette.repository.parentsOf? "color" "Red" = some [2] ∧
      imported.parentsOf? "color" "Red" =
        some (["Bright", "Loud"].filterMap (imported.tagId? "color")) ∧
      imported.parentsOf? "color" "Pink" = warmPalette.repository.parentsOf? "color" "Pink" := by
  intro imported
  obtain ⟨-, colors⟩ := parents_replaced_where_listed warmPalette_reachable (by decide +kernel)
    nodup_tagNames_warmPalette [Palette.brightColors] (by decide) (by decide)
  have listed := colors Palette.brightColors List.mem_cons_self
  obtain ⟨red, stored, replaced, -⟩ := listed ⟨"color", "Red", ["Bright", "Loud"]⟩ (by decide)
  obtain ⟨pink, stored', -, kept⟩ := listed ⟨"color", "Pink", []⟩ (by decide)
  refine ⟨by decide +kernel, stored.trans (congrArg some (replaced (by decide)).1), ?_⟩
  have former : warmPalette.repository.parentsOf? "color" "Pink" = some [1] := by decide +kernel
  refine stored'.trans ?_
  rw [kept rfl]
  change some ((warmPalette.repository.parentsOf? "color" "Pink").getD []) = _
  rw [former]
  rfl

/-- A tag that is listed without parents is not left without any: Pink stays below Red. -/
theorem parents_kept_where_unlisted :
    ¬ ∀ (s : Store) (vocabularies : List VocabularyRecord), Reachable s → s.overwrite = false →
      (∀ id, (s.repository.tagNames id).Nodup) → (vocabularies.map (·.vocabularyId)).Nodup →
      (∀ v ∈ vocabularies, (v.tags.map (·.name)).Nodup ∧ ∀ tag ∈ v.tags, tag.name ≠ "") →
      let imported := (s.importVocabularies vocabularies).repository
      ∀ v ∈ vocabularies, ∀ tag ∈ v.tags, ∃ parents,
        imported.parentsOf? v.vocabularyId tag.name = some parents ∧
          ∀ id, id ∈ parents ↔ ∃ parent, (id, parent) ∈ imported.tagsOf v.vocabularyId ∧
            parent.name ∈ tag.parentNames := by
  intro claimed
  have colors := claimed warmPalette [Palette.brightColors] warmPalette_reachable
    (by decide +kernel) nodup_tagNames_warmPalette (by decide) (by decide)
  obtain ⟨parents, stored, listed⟩ :=
    colors Palette.brightColors List.mem_cons_self ⟨"color", "Pink", []⟩ (by decide)
  have kept : (warmPalette.importVocabularies [Palette.brightColors]).repository.parentsOf?
      "color" "Pink" = some [1] := by decide +kernel
  obtain rfl := Option.some.inj (kept.symm.trans stored)
  obtain ⟨parent, -, unlisted⟩ := (listed 1).mp List.mem_cons_self
  exact absurd unlisted List.not_mem_nil

end Store

end ContentImport
