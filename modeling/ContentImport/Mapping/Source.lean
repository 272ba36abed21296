import ContentImport.Hierarchy

/-!
An ontology opened for mapping, with the choice of what becomes a node.
-/

set_option autoImplicit false
set_option relaxedAutoImplicit false

namespace ContentImport.Mapping

open ContentImport.Ontology

/-- Which classes become nodes besides the individuals. -/
structure NodeOptions where
  classesAsNodes : Bool
  onlyLeafClasses : Bool
  deriving DecidableEq, Repr

/-- Whether nodes link to those above and below them: only when whole class trees become nodes. -/
def NodeOptions.linksClassTree (o : NodeOptions) : Bool :=
  o.classesAsNodes && !o.onlyLeafClasses

/-- An ontology opened for mapping. -/
structure Source where
  graph : Graph
  anchors : Anchors
  options : NodeOptions

end ContentImport.Mapping
