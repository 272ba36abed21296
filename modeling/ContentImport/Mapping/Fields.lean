import ContentImport.Mapping.Vocabularies
import ContentImport.Warnings

/-!
The fields of a node: its body, its place in the class tree, its tags, and one field for each field
property that it has values of. A resource that is a value becomes a reference by what it is below;
one that cannot be mapped is left out with a warning.
-/

set_option autoImplicit false
set_option relaxedAutoImplicit false

namespace ContentImport.Mapping

open ContentImport.Ontology

/-- The text of the first value of a property, unless it is empty. -/
def firstText? (e : Element) (property : Iri) : Option String :=
  let text : Term → String
    | .literal l => l.fieldText
    | .resource iri => stripTypeSuffix iri.text
  ((e.values property).head?.map text).filter (· ≠ "")

namespace Source

def bodyField (s : Source) (e : Element) : FieldRecord :=
  .named "body"
    (.body (.fullHtml (firstText? e s.anchors.content) (firstText? e s.anchors.summary))) none

/-- The classes of an entity, or those that it is put below if it is a class, as far as they lie
below a class that gives a content type. -/
def parentField (s : Source) (entity : Iri) (e : Element) : FieldRecord :=
  let root := s.anchors.node
  let candidates :=
    if e.hasKind .owlClass then s.graph.directSuperclasses entity else s.graph.types entity
  let parents := candidates.filter fun c =>
    s.graph.isBelow c root && !s.graph.isDirectlyBelow c root
  .named "field_parent" (.references (parents.map fun c => .node c.text)) (some .node)

/-- The classes put below a class, and its individuals. -/
def childField (s : Source) (c : Iri) : FieldRecord :=
  let children := s.graph.directSubclasses c ++ s.graph.instances c
  .named "field_child" (.references (children.map fun child => .node child.text)) (some .node)

/-- The reference to the tag that a class becomes, where it becomes one. -/
def tagItem? (s : Source) (tag : Iri) : Option FieldItem :=
  (s.vocabularyForTag? tag).map fun vocabulary =>
    .tag ⟨vocabulary.localName, s.graph.displayName tag⟩

/-- The tags that the types of an entity and the classes it is put below become. -/
def tagItems (s : Source) (entity : Iri) : List FieldItem :=
  let candidates := s.graph.types entity ++ s.graph.directSuperclasses entity
  Distinct.ofList
    ((candidates.filter fun c => s.graph.isBelow c s.anchors.vocabulary).filterMap s.tagItem?)

/-- The path of a class of files: the name of each class of files above it, and its own. -/
def filePath (s : Source) (c : Iri) : String :=
  (s.graph.allSuperclasses c).foldl (fun path ancestor =>
    if s.graph.isBelow ancestor s.anchors.file then s.graph.displayName ancestor ++ "/" ++ path
    else path) (s.graph.displayName c)

/-- The uri of a file, behind the path of the first class of files that it is put below, or that it
is of when it is put below none. -/
def fileUri? (s : Source) (file : Iri) : Option String := do
  let e ← s.graph.element? file
  let uri ← firstText? e s.anchors.uri
  let superclasses := s.graph.directSuperclasses file
  let classes := if superclasses.isEmpty then s.graph.types file else superclasses
  match classes.find? fun c => s.graph.isBelow c s.anchors.file with
  | some c => pure (s.filePath c ++ "/" ++ uri)
  | none => pure uri

def unnamedValueMessage (entity property target : Iri) : String :=
  "Entity '" ++ target.localName ++ "' by '" ++ entity.localName ++
    "' referenced but no field given. ('" ++ property.localName ++ "')"

/-- What is said of an entity without the value that it stands for. -/
def missingValueMessage (target : Iri) (field : String) : String :=
  "Entity '" ++ target.localName ++ "' has no value for field '" ++ field ++ "'."

/-- What is said of a file without a uri. -/
def missingUriMessage (entity target : Iri) : String :=
  "File '" ++ target.localName ++ "' referenced by '" ++ entity.localName ++ "' has no uri."

/-- What is said of a target that is nothing that can be referred to. -/
def nonexistentMessage (entity property target : Iri) : String :=
  "Nonexistent entity '" ++ target.localName ++ "' referenced by '" ++ entity.localName ++
    "' and property '" ++ property.text ++ "'"

/-- The value that a generic entity stands for, from the property that the axiom about it names. -/
def entityValue? (s : Source) (entity property target : Iri) (axioms : AxiomIndex) :
    Noted (Option String) :=
  match (axioms.withTarget? property (.resource target)).bind (·.field) with
  | none => do
    Noted.warn (unnamedValueMessage entity property target)
    pure none
  | some field =>
    match (s.graph.element? target).bind (·.valueOfField? field) with
    | none => do
      Noted.warn (missingValueMessage target field)
      pure none
    | some value => pure (some (stripTypeSuffix value.lexical))

/-- The reference that a target becomes, and its kind; a generic entity has none. -/
def targetItem? (s : Source) (entity property target : Iri) (axioms : AxiomIndex) :
    Noted (Option (FieldItem × Option ReferenceKind)) :=
  if s.graph.descendsFrom target s.anchors.node then
    pure (some (.node target.text, some .node))
  else if s.graph.descendsFrom target s.anchors.file then
    match s.fileUri? target with
    | some uri => pure (some (.file uri, some .file))
    | none => do
      Noted.warn (missingUriMessage entity target)
      pure none
  else
    match s.tagItem? target with
    | some item => pure (some (item, some .taxonomyTerm))
    | none =>
      if s.graph.isInstance target s.anchors.entity then do
        let value ← s.entityValue? entity property target axioms
        pure (value.map fun text => (.literal text, none))
      else do
        Noted.warn (nonexistentMessage entity property target)
        pure none

/-- The kind of a field: that of the last reference that has one. -/
def kindOf (items : List (FieldItem × Option ReferenceKind)) : Option ReferenceKind :=
  items.foldl (fun kind item => item.2.or kind) none

/-- The field of a property. Literals win over resources; without a target that can be mapped there
is no field. -/
def nodeField? (s : Source) (entity : Iri) (e : Element) (property : Iri) (axioms : AxiomIndex) :
    Noted (Option FieldRecord) :=
  let values := e.values property
  let literals := values.filter (·.literal?.isSome)
  if !literals.isEmpty then
    let texts := ((axioms.orderValues property literals).filterMap Term.literal?).map
      Literal.fieldText
    pure (some (.named property.localName (.literals texts) none))
  else do
    let targets := (axioms.orderValues property values).filterMap Term.resource?
    let mapped ← targets.mapM fun target => s.targetItem? entity property target axioms
    let items := mapped.filterMap id
    if items.isEmpty then pure none
    else
      pure (some (.named property.localName (.references (items.map (·.1))) (kindOf items)))

def nodeFields (s : Source) (entity : Iri) (e : Element) : Noted (List FieldRecord) := do
  let tree :=
    if s.options.linksClassTree then
      s.parentField entity e :: if e.hasKind .owlClass then [s.childField entity] else []
    else []
  let tags :=
    if s.graph.descendsFrom entity s.anchors.vocabulary then
      [FieldRecord.named "field_tags" (.references (s.tagItems entity)) (some .taxonomyTerm)]
    else []
  let axioms : AxiomIndex := ⟨s.graph.axiomsOf entity⟩
  let properties := s.graph.fieldProperties.filter fun p => e.hasValue p.iri
  let fields ← properties.mapM fun p => s.nodeField? entity e p.iri axioms
  pure (s.bodyField e :: tree ++ tags ++ fields.filterMap id)

end Source

end ContentImport.Mapping
