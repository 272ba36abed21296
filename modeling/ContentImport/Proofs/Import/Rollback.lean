import ContentImport.Proofs.Import.Phases
import ContentImport.Proofs.Store.Growth

/-!
Failed imports. A run that fails empties the ledger and takes away what it created; without
overwriting, the only trace that it can leave is in the parents of older tags, which importing a
vocabulary links anew and no ledger records.
-/

set_option autoImplicit false
set_option relaxedAutoImplicit false

namespace ContentImport

open ContentImport.Store

theorem ImportSource.unresolved_tags (settings : ImportSettings) (source : ImportSource)
    (s : Store) : (source.unresolved settings s).2.store.repository.tags =
      (s.importVocabularies (source.vocabulariesFor settings)).repository.tags := by
  have kept : ∀ n ∈ (source.entriesFor settings).filterMap (·.value), ∀ t : Store,
      t.repository.tags =
        (s.importVocabularies (source.vocabulariesFor settings)).repository.tags →
      (t.createNode n).2.repository.tags =
        (s.importVocabularies (source.vocabulariesFor settings)).repository.tags := by
    intro n _ t same
    rw [createNode_tags, same]
  exact Progress.storeNodes_induction _ kept (source.tagged settings s) rfl

variable {s t : Store}

private theorem eq_of_sameButParents {r r' : Repository} {tags : Table EntityId StoredTag}
    (same : r.SameButParents r') (ascending : tags.Ascending) (kept : ∀ e ∈ r.tags, e ∈ tags)
    (from' : ∀ e ∈ r'.tags, e ∈ tags) : r' = r := by
  obtain ⟨others, named⟩ := same
  have keys := congrArg (List.map Prod.fst) named
  simp only [List.map_map, Function.comp_def] at keys
  rw [others, ascending.eq_of_map_key keys from' kept]

private theorem runSource_failed {settings : ImportSettings} {source : ImportSource}
    (failed : (runSource settings source s).1.isOk = false) :
    (runSource settings source s).2 = (source.unresolved settings s).2.store.rollback := by
  rw [runSource_eq] at failed ⊢
  generalize source.unresolved settings s = outcome at failed ⊢
  obtain ⟨failure, p⟩ := outcome
  cases failure with
  | none => simp [Except.isOk, Except.toBool] at failed
  | some e => rfl

/-- A failed import leaves no trace, except where importing its vocabularies gives other parents to
tags that are there already. -/
theorem runImport_failed {settings : ImportSettings} {path : String} {content : PathContent}
    (reachable : Reachable s) (keeps : s.overwrite = false) (settled : s.ledger = .empty)
    (failed : (runImport settings path content s).1.isOk = false) :
    (runImport settings path content s).2.ledger = .empty ∧
      s.repository.SameButParents (runImport settings path content s).2.repository ∧
      ((runImport settings path content s).2.repository = s.repository ↔
        ∀ source, openSource settings path content = .ok source →
          ∀ tag ∈ s.repository.tags,
            tag ∈ (s.importVocabularies (source.vocabulariesFor settings)).repository.tags) := by
  have wf := reachable.sound.wellFormed
  unfold runImport at failed ⊢
  cases opened : openSource settings path content with
  | error e =>
    refine ⟨settled, ⟨rfl, rfl⟩, iff_of_true rfl ?_⟩
    intro source other
    cases other
  | ok source =>
    simp only [opened] at failed ⊢
    have steps := source.unresolved_edits wf settings
    have tags := source.unresolved_tags settings s
    have journal := (wf.journal settled).edits wf steps
    have same := (wf.journal settled).sameButParents wf keeps steps
    have ascending := (wf.edits steps).consistent.tagsAscending
    rw [wf.older_eq settled] at same
    rw [runSource_failed failed, journal.rollback_eq (wf.edits steps)]
    refine ⟨rfl, same, ?_, ?_⟩
    · rintro unchanged _ ⟨⟩ tag held
      rw [← unchanged] at held
      exact tags ▸ (List.mem_filter.mp held).1
    · intro kept
      refine eq_of_sameButParents same ascending (fun e held => ?_) fun e held => ?_
      · exact tags ▸ kept source rfl e held
      · exact (List.mem_filter.mp held).1

def Store.colors : Store :=
  [Operation.createVocabulary "color" "Color", .createTag "color" "Red", .createTag "color" "Warm",
    .createNode ⟨"Apple", "fruit", none, "apple", []⟩, .commit].foldl Operation.apply
      (.empty false [])

/-- A document that puts one of the colors below the other and has the node once more. -/
def relinkedColors : PathContent :=
  .file ("\x7b\"vocabularies\":[\x7b\"vid\":\"color\",\"tags\":[\x7b\"name\":\"Red\"," ++
    "\"parents\":[\"Warm\"]\x7d]\x7d],\"nodes\":[\x7b\"title\":\"Apple\",\"type\":\"fruit\"," ++
    "\"uuid\":\"apple\"\x7d]\x7d").toUTF8.toList

theorem runImport_failed_relinks :
    (runImport .standard "fruit.json" relinkedColors .colors).1.isOk = false ∧
      (runImport .standard "fruit.json" relinkedColors .colors).2.ledger = .empty ∧
      (runImport .standard "fruit.json" relinkedColors .colors).2.repository ≠
        Store.colors.repository := by
  have run : ((runImport .standard "fruit.json" relinkedColors .colors).1.isOk,
      (runImport .standard "fruit.json" relinkedColors .colors).2.repository.tags) =
        (false, [(1, ⟨"color", "Red", [2]⟩), (2, ⟨"color", "Warm", []⟩)]) := by
    decide +kernel
  obtain ⟨failed, tags⟩ := Prod.mk.inj run
  have reachable : Reachable .colors := (Reachable.empty false []).operations _
  have trace := runImport_failed reachable (by decide +kernel) (by decide +kernel) failed
  refine ⟨failed, trace.1, ?_⟩
  intro same
  rw [same] at tags
  exact absurd tags (by decide +kernel)

end ContentImport
