import ContentImport.Proofs.Hierarchy.Subclass
import ContentImport.Proofs.Import.Dump

/-!
Names of parents. The parents of a tag are the classes that its own class is put below, whatever
vocabulary these are in, as long as they are neither the vocabulary anchor nor directly below it.
The tags of a vocabulary are found from above instead, so the parents of a tag are the tags of its
vocabulary among those classes only where the two conditions agree.
-/

set_option autoImplicit false
set_option relaxedAutoImplicit false

namespace ContentImport

open ContentImport.Ontology

namespace Mapping.Source

section

variable (strategy : AccessStrategy) (anchors : Anchors) (notices : List String)
  (elements : List Element) (options : NodeOptions)

private theorem mem_vocabularyClasses_iff (c : Iri) :
    c ∈ (Source.mk (.ofElements strategy anchors notices elements) anchors
      options).vocabularyClasses ↔ Graph.StatedBelow elements c anchors.vocabulary := by
  have coherent := Graph.ofElements_coherent strategy anchors notices elements
  rw [vocabularyClasses, coherent.converse, Graph.mem_directSuperclasses_iff]

private theorem parentTagNames_eq (tag : Iri) :
    let s : Source := ⟨.ofElements strategy anchors notices elements, anchors, options⟩
    s.parentTagNames tag = ((Graph.statedSuperclasses elements tag).filter fun parent =>
      parent ≠ anchors.vocabulary ∧ parent ∉ s.vocabularyClasses).map s.graph.displayName := by
  intro s
  have coherent := Graph.ofElements_coherent strategy anchors notices elements
  rw [parentTagNames, Graph.directSuperclasses_eq]
  refine congrArg _ (List.filter_congr fun parent _ => ?_)
  have vocabulary : s.graph.isDirectlyBelow parent anchors.vocabulary =
      decide (parent ∈ s.vocabularyClasses) :=
    decide_eq_decide.mpr (coherent.converse _ _).symm
  rw [vocabulary, ← decide_not, ← Bool.decide_and]

/-- The records have the classes below the vocabulary classes as tags, with the parents that are
stated. These are the tags of the same record among the classes that a tag is put below exactly when
each of those classes is such a tag, unless it is the anchor or a vocabulary class, and else is
none. -/
theorem parentNames_stated :
    let s : Source := ⟨.ofElements strategy anchors notices elements, anchors, options⟩
    let listed := fun tag => (Graph.statedSuperclasses elements tag).filter fun parent =>
      parent ≠ anchors.vocabulary ∧ parent ∉ s.vocabularyClasses
    s.vocabularyRecords = s.vocabularyClasses.map (fun c =>
        ⟨c.localName, c.localName, (s.graph.allSubclasses c).map fun tag =>
          ⟨c.localName, s.graph.displayName tag, (listed tag).map s.graph.displayName⟩⟩) ∧
      ∀ c tag, (c ∈ s.vocabularyClasses ↔ Graph.StatedBelow elements c anchors.vocabulary) ∧
        (tag ∈ s.graph.allSubclasses c ↔ tag ≠ c ∧ Graph.PathUp elements tag c) ∧
        (listed tag = (Graph.statedSuperclasses elements tag).filter
            (· ∈ s.graph.allSubclasses c) ↔
          ∀ parent, Graph.StatedBelow elements tag parent →
            (parent ∈ s.graph.allSubclasses c ↔
              parent ≠ anchors.vocabulary ∧ parent ∉ s.vocabularyClasses)) := by
  intro s listed
  refine ⟨?_, fun c tag => ⟨?_, ?_, ?_⟩⟩
  · have tags : ∀ c tag, s.tagRecord c tag =
        ⟨c, s.graph.displayName tag, (listed tag).map s.graph.displayName⟩ := fun c tag =>
      congrArg (TagRecord.mk _ _) (parentTagNames_eq strategy anchors notices elements options tag)
    refine List.map_congr_left fun c _ => ?_
    rw [vocabularyRecord]
    exact congrArg _ (List.map_congr_left fun tag _ => tags c.localName tag)
  · exact mem_vocabularyClasses_iff strategy anchors notices elements options c
  · have coherent := Graph.ofElements_coherent strategy anchors notices elements
    rw [coherent.mem_allSubclasses_iff, Graph.leadsUp_iff]
  · have stated : ∀ parent, Graph.StatedBelow elements tag parent ↔
        parent ∈ Graph.statedSuperclasses elements tag := fun parent => by
      rw [← Graph.directSuperclasses_eq strategy anchors notices,
        Graph.mem_directSuperclasses_iff]
    simp only [stated]
    constructor
    · intro same parent above
      have both : parent ∈ listed tag ↔ parent ∈ (Graph.statedSuperclasses elements tag).filter
          (· ∈ s.graph.allSubclasses c) := by rw [same]
      simpa [listed, List.mem_filter, above, iff_comm] using both
    · intro agree
      refine List.filter_congr fun parent above => ?_
      exact decide_eq_decide.mpr (agree parent above).symm

end

end Mapping.Source

namespace CrossedPalette

def color : Iri := ⟨"e:Color", by decide +kernel⟩

def mood : Iri := ⟨"e:Mood", by decide +kernel⟩

def shade : Iri := ⟨"e:Shade", by decide +kernel⟩

def calm : Iri := ⟨"e:Calm", by decide +kernel⟩

def blue : Iri := ⟨"e:Blue", by decide +kernel⟩

def navy : Iri := ⟨"e:Navy", by decide +kernel⟩

def below (c : Iri) (parents : List Iri) : Element :=
  ⟨some c, [], parents.map fun parent => ⟨rdfsSubClassOf, .resource parent⟩⟩

/-- Colors and moods, and shades as a vocabulary among the colors. Blue is a calm color, and navy is
a shade of blue. -/
def elements : List Element :=
  [below color [siteAnchors.vocabulary], below mood [siteAnchors.vocabulary],
    below shade [siteAnchors.vocabulary, color], below calm [mood], below blue [color, calm],
    below navy [blue, shade]]

end CrossedPalette

open CrossedPalette in
def crossedPalette : Mapping.Source where
  graph := Graph.ofElements .inMemory siteAnchors [] elements
  anchors := siteAnchors
  options := ⟨false, false⟩

namespace Mapping.Source

open CrossedPalette

private theorem crossedPalette_colors :
    crossedPalette.graph.allSubclasses color = [shade, navy, blue] := by
  rw [Graph.allSubclasses_eq_descendWithin]
  decide +kernel

/-- Navy is listed below blue, but not below the shades, which are a vocabulary among the colors. -/
theorem parentNames_stated_crossedPalette :
    ∃ record ∈ crossedPalette.vocabularyRecords, record.vocabularyId = "Color" ∧
      (⟨"Color", "Navy", ["Blue"]⟩ : TagRecord) ∈ record.tags ∧
      shade ∈ crossedPalette.graph.allSubclasses color ∧
      Graph.StatedBelow elements navy shade := by
  obtain ⟨records, -⟩ := parentNames_stated .inMemory siteAnchors [] elements ⟨false, false⟩
  have vocabulary : color ∈ crossedPalette.vocabularyClasses := by decide +kernel
  have tagged : navy ∈ crossedPalette.graph.allSubclasses color ∧
      shade ∈ crossedPalette.graph.allSubclasses color := by
    rw [crossedPalette_colors]
    decide +kernel
  refine ⟨_, records ▸ List.mem_map_of_mem vocabulary, by decide +kernel, ?_, tagged.2, ?_⟩
  · refine List.mem_map.mpr ⟨navy, tagged.1, ?_⟩
    decide +kernel
  · exact ⟨below navy [blue, shade], by decide +kernel, rfl, by decide +kernel⟩

/-- Blue is listed below calm, which is no color. -/
theorem parentNames_stray_crossedPalette :
    ¬ ∀ (strategy : AccessStrategy) (anchors : Anchors) (notices : List String)
        (elements : List Element) (options : NodeOptions),
      let s : Source := ⟨.ofElements strategy anchors notices elements, anchors, options⟩
      ∀ c ∈ s.vocabularyClasses, ∀ tag ∈ s.graph.allSubclasses c,
        (s.tagRecord c.localName tag).parentNames =
          ((s.graph.directSuperclasses tag).filter (· ∈ s.graph.allSubclasses c)).map
            s.graph.displayName := by
  intro claimed
  have blues := claimed .inMemory siteAnchors [] elements ⟨false, false⟩ color
    (by decide +kernel) blue
  change blue ∈ crossedPalette.graph.allSubclasses color →
    crossedPalette.parentTagNames blue =
      ((crossedPalette.graph.directSuperclasses blue).filter
        (· ∈ crossedPalette.graph.allSubclasses color)).map
          crossedPalette.graph.displayName at blues
  rw [crossedPalette_colors] at blues
  exact absurd (blues (by decide +kernel)) (by decide +kernel)

end Mapping.Source

end ContentImport
