import ContentImport.Proofs.Graph.Unread
import ContentImport.Proofs.Mapping.Parts

/-!
Records of like ontologies. Where two ontologies differ only in the values of a property that is not
read by name, an entity gets the same content type and the same fields of fixed names. A target
becomes the same reference, unless the value that a generic entity stands for is looked up in a
description that differs.
-/

set_option autoImplicit false
set_option relaxedAutoImplicit false

namespace ContentImport.Mapping.Source

open ContentImport.Ontology

/-- The same choices for another ontology. -/
def withGraph (s : Source) (g : Graph) : Source :=
  { s with graph := g }

@[simp] theorem withGraph_graph (s : Source) (g : Graph) : (s.withGraph g).graph = g := rfl

@[simp] theorem withGraph_anchors (s : Source) (g : Graph) :
    (s.withGraph g).anchors = s.anchors := rfl

variable {p : Iri} {s : Source} {g : Graph} (same : s.graph.SameBesides p g)
  (unread : p ∉ namedProperties s.anchors)

include same unread

theorem bundleOf?_withGraph (entity : Iri) :
    (s.withGraph g).bundleOf? entity = s.bundleOf? entity := by
  simp only [bundleOf?, withGraph, same.directSubclasses, same.descendsFrom unread]

private theorem tagItem?_withGraph (tag : Iri) : (s.withGraph g).tagItem? tag = s.tagItem? tag := by
  simp only [tagItem?, vocabularyForTag?, vocabularyClasses, withGraph, same.directSubclasses,
    same.allSubclasses, same.displayName unread]

private theorem tagItems_withGraph (entity : Iri) :
    (s.withGraph g).tagItems entity = s.tagItems entity := by
  have items : (s.withGraph g).tagItem? = s.tagItem? := funext (tagItem?_withGraph same unread)
  rw [tagItems, tagItems, items]
  simp only [withGraph, same.types unread, same.directSuperclasses unread, same.isBelow unread]

theorem tagFields_withGraph (entity : Iri) :
    (s.withGraph g).tagFields entity = s.tagFields entity := by
  rw [tagFields, tagFields, tagItems_withGraph same unread]
  simp only [withGraph, same.descendsFrom unread]

private theorem filePath_withGraph (c : Iri) : (s.withGraph g).filePath c = s.filePath c := by
  simp only [filePath, withGraph, same.allSuperclasses unread, same.isBelow unread,
    same.displayName unread]

private theorem fileUri?_withGraph (file : Iri) :
    (s.withGraph g).fileUri? file = s.fileUri? file := by
  have path : (s.withGraph g).filePath = s.filePath := funext (filePath_withGraph same unread)
  rw [fileUri?, fileUri?, path]
  simp only [withGraph, same.directSuperclasses unread, same.types unread, same.isBelow unread]
  refine Element.eq_of_rel (f := fun found => found >>= _) ?_ (same.element? file)
  intro e other pair
  simp only [Option.bind_eq_bind, Option.bind_some,
    pair.firstText? unread (q := s.anchors.uri) (by simp [namedProperties])]

theorem targetItem?_withGraph (entity property target : Iri) (axioms : AxiomIndex)
    (apart : s.graph.descendsFrom target s.anchors.node = false →
      g.element? target = s.graph.element? target) :
    (s.withGraph g).targetItem? entity property target axioms =
      s.targetItem? entity property target axioms := by
  unfold targetItem?
  rw [fileUri?_withGraph same unread, tagItem?_withGraph same unread]
  simp only [withGraph, same.descendsFrom unread, same.isInstance unread, entityValue?]
  cases node : s.graph.descendsFrom target s.anchors.node with
  | true => rfl
  | false => simp only [apart node]

omit unread in
private theorem childField_withGraph (c : Iri) : (s.withGraph g).childField c = s.childField c := by
  simp only [childField, withGraph, same.directSubclasses, same.instances]

variable {e other : Element} (pair : e.SameBesides p other)

include pair

private theorem parentField_withGraph (entity : Iri) :
    (s.withGraph g).parentField entity other = s.parentField entity e := by
  simp only [parentField, withGraph, pair.hasKind unread, same.directSuperclasses unread,
    same.types unread, same.isBelow unread, same.isDirectlyBelow unread]

theorem treeFields_withGraph (entity : Iri) :
    (s.withGraph g).treeFields entity other = s.treeFields entity e := by
  rw [treeFields, treeFields, parentField_withGraph same unread pair,
    childField_withGraph same, pair.hasKind unread]
  rfl

omit same in
theorem bodyField_withGraph : (s.withGraph g).bodyField other = s.bodyField e := by
  simp only [bodyField, withGraph,
    pair.firstText? unread (q := s.anchors.content) (by simp [namedProperties]),
    pair.firstText? unread (q := s.anchors.summary) (by simp [namedProperties])]

end ContentImport.Mapping.Source
