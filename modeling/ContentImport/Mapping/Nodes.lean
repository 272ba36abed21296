import ContentImport.Mapping.Fields

/-!
Nodes of an ontology: the individuals below the node anchor, and the classes below its content types
where they are wanted. The content type of a node is the first class directly below the anchor that
the node descends from.
-/

set_option autoImplicit false
set_option relaxedAutoImplicit false

namespace ContentImport.Mapping

open ContentImport.Ontology

/-- The machine name of a content type: lower case, with a low line for whatever is neither a
letter nor a digit of ASCII. -/
def bundleName (name : String) : String :=
  String.ofList (name.toList.map fun c => if c.isAlphanum then c.toLower else '_')

namespace Source

def classEntities (s : Source) : List Iri :=
  if s.options.classesAsNodes then
    (s.graph.directSubclasses s.anchors.node).flatMap fun c =>
      if s.options.onlyLeafClasses then s.graph.leafSubclasses c else s.graph.allSubclasses c
  else []

/-- The individuals that become nodes: those below the anchor, except its direct members. -/
def individualEntities (s : Source) : List Iri :=
  (s.graph.ofKind .namedIndividual).filter fun individual =>
    s.graph.isInstance individual s.anchors.node &&
      !(s.graph.types individual).contains s.anchors.node

def nodeEntities (s : Source) : List Iri :=
  Distinct.ofList (s.classEntities ++ s.individualEntities)

def bundleOf? (s : Source) (entity : Iri) : Option String :=
  ((s.graph.directSubclasses s.anchors.node).find? (s.graph.descendsFrom entity)).map fun c =>
    bundleName c.localName

def unresolvedTypeMessage (entity : Iri) : String :=
  "Content type of '" ++ entity.localName ++ "' could not be resolved, node skipped."

/-- The record of an entity, or nothing when it has no content type. -/
def nodeRecord? (s : Source) (entity : Iri) : Noted (Option NodeRecord) :=
  match s.bundleOf? entity with
  | none => do
    Noted.warn (unresolvedTypeMessage entity)
    pure none
  | some bundle => do
    let e := (s.graph.element? entity).getD (.empty (some entity))
    let title := (firstText? e s.anchors.title).getD entity.localName
    let fields ← s.nodeFields entity e
    pure (some (((NodeRecord.titled title bundle (some entity.text)).withAlias
      (firstText? e s.anchors.pathAlias)).withFields fields))

def nodeRecords (s : Source) : Noted (List NodeRecord) := do
  let records ← s.nodeEntities.mapM s.nodeRecord?
  pure (records.filterMap id)

end Source

end ContentImport.Mapping
