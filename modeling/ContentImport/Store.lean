import ContentImport.Record.Encoding
import ContentImport.Store.Repository

/-!
The content store. It writes entities into its repository and enters each one that it creates into
the ledger of the run, so that a rollback can delete them. With overwriting on, vocabularies and
nodes that exist are replaced; otherwise a node that exists is refused. A content model lists the
fields of each content type; without one every type and field is accepted.
-/

set_option autoImplicit false
set_option relaxedAutoImplicit false

namespace ContentImport

open ContentImport.Store

/-- Why the store refuses a write. -/
inductive StoreError where
  /-- A node of the uuid exists, and overwriting is off. -/
  | duplicateNode (uuid : String)
  | unknownBundle (bundle : String)
  | unknownVocabulary (id : String)
  | untitledNode (uuid : String)
  deriving DecidableEq, Repr

namespace StoreError

/-- Whether the error ends the run; the others only concern the entity being written. -/
def isFatal : StoreError → Bool
  | .duplicateNode _ => true
  | _ => false

def message : StoreError → String
  | .duplicateNode uuid =>
    "node with uuid '" ++ uuid ++
      "' already exists. Enable overwrite if you want to replace it and try again."
  | .unknownBundle bundle =>
    "repository rejected write: Content type '" ++ bundle ++ "' does not exist."
  | .unknownVocabulary id =>
    "repository rejected write: Vocabulary '" ++ id ++ "' does not exist."
  | .untitledNode uuid => "repository rejected write: Node '" ++ uuid ++ "' has no title."

end StoreError

/-- A node that was created, and the fields of it that its content type does not have. -/
structure CreatedNode where
  id : EntityId
  skippedFields : List String
  deriving DecidableEq, Repr

/-- The targets of a reference field of a stored node. -/
structure ReferenceWrite where
  node : EntityId
  fieldName : String
  kind : ReferenceKind
  /-- The numbers of the targets, nothing for one that was not found. -/
  targetIds : List (Option EntityId)
  deriving DecidableEq, Repr

/-- A content store. -/
structure Store where
  overwrite : Bool
  /-- The fields of each content type. -/
  contentModel : Table String (List String)
  repository : Repository
  ledger : Ledger
  /-- The number given last. -/
  lastId : EntityId

namespace Store

def empty (overwrite : Bool) (contentModel : Table String (List String)) : Store :=
  ⟨overwrite, contentModel, .empty, .empty, 0⟩

/-- Create a vocabulary. One that exists loses its tags when overwriting is on. -/
def createVocabulary (s : Store) (id name : String) : Store :=
  if Table.holds s.repository.vocabularies id then
    if s.overwrite then
      let cleared := (s.repository.tagsOf id).map (·.1)
      { s with
        repository := { s.repository with tags := cleared.foldl Table.erase s.repository.tags }
        ledger := s.ledger.forgetTags cleared }
    else s
  else
    { s with
      repository :=
        { s.repository with vocabularies := Table.put id name s.repository.vocabularies }
      ledger := s.ledger.recordVocabulary id }

/-- Add a tag to a vocabulary that exists; one without a name is not added. -/
def addTag (s : Store) (vocabularyId name : String) : Store :=
  if name = "" then s
  else
    let id := s.lastId + 1
    { s with
      repository :=
        { s.repository with tags := Table.put id ⟨vocabularyId, name, []⟩ s.repository.tags }
      ledger := s.ledger.recordTag id
      lastId := id }

/-- Create a tag; its vocabulary has to exist unless the tag has no name. -/
def createTag (s : Store) (vocabularyId name : String) : Except StoreError Store :=
  if name = "" then .ok s
  else if Table.holds s.repository.vocabularies vocabularyId then .ok (s.addTag vocabularyId name)
  else .error (.unknownVocabulary vocabularyId)

/-- Give a tag the parents of the given names that exist in its vocabulary. A link without parents
changes nothing. -/
def linkParents (vocabularyId : String) (s : Store) (link : TagParents) : Store :=
  if link.parents.isEmpty then s
  else
    match s.repository.tagId? vocabularyId link.name with
    | none => s
    | some id =>
      let parents := link.parents.filterMap (s.repository.tagId? vocabularyId)
      let tags := Table.adjust s.repository.tags id fun tag => { tag with parents }
      { s with repository := { s.repository with tags } }

def setTagParents (s : Store) (vocabularyId : String) (links : List TagParents) : Store :=
  links.foldl (linkParents vocabularyId) s

/-- The file of a uri, which is created unless it exists. -/
def fileFor (s : Store) (uri : String) : EntityId × Store :=
  match s.repository.fileId? uri with
  | some id => (id, s)
  | none =>
    let id := s.lastId + 1
    (id, { s with
      repository := { s.repository with files := Table.put id uri s.repository.files }
      ledger := s.ledger.recordFile id
      lastId := id })

/-- The values of references as they are stored; files are created. -/
def itemValues (s : Store) : List FieldItem → List Json.Value × Store
  | [] => ([], s)
  | item :: rest =>
    let (value, s) := match item with
      | .file uri =>
        let (id, s) := s.fileFor uri
        (Json.Value.object [("uri", .text uri), ("target_id", .nat id)], s)
      | other => (other.toJson, s)
    let (values, s) := s.itemValues rest
    (value :: values, s)

/-- The value of a field as it is stored with its node; references that wait for other entities have
none yet. -/
def fieldValue? (s : Store) (f : FieldRecord) : Option Json.Value × Store :=
  if f.deferredTargets?.isSome then (none, s)
  else
    match f.value with
    | .references items =>
      let (values, s) := s.itemValues items
      (some (.list values), s)
    | other => (some other.toJson, s)

/-- Fields that were accepted with their values, and the names of those that were not. -/
structure WrittenFields where
  values : Table String Json.Value
  skipped : List String

def writeField (accepted : Option (List String)) (state : WrittenFields × Store) (f : FieldRecord) :
    WrittenFields × Store :=
  let (written, s) := state
  if accepted.any (!·.contains f.fieldName) then
    ({ written with skipped := written.skipped ++ [f.fieldName] }, s)
  else
    match s.fieldValue? f with
    | (some value, s) =>
      ({ written with values := Table.put f.fieldName value written.values }, s)
    | (none, s) => (written, s)

/-- The fields of a content type, or nothing where every field is accepted. -/
def bundleFields (s : Store) (bundle : String) : Except StoreError (Option (List String)) :=
  if s.contentModel.isEmpty then .ok none
  else
    match Table.get? s.contentModel bundle with
    | some fields => .ok (some fields)
    | none => .error (.unknownBundle bundle)

/-- Delete the node of a uuid, where there is one; without overwriting it stays and is an error. -/
def deleteNodeIfExists (s : Store) (uuid : String) : Except StoreError Store :=
  match s.repository.nodeByUuid? uuid with
  | none => .ok s
  | some (id, _) =>
    if s.overwrite then
      .ok { s with
        repository := s.repository.removeNode id
        ledger := s.ledger.forgetNode id (s.repository.pathsOf id) }
    else .error (.duplicateNode uuid)

def addAlias (s : Store) (node : EntityId) (pathAlias : String) : Store :=
  let id := s.lastId + 1
  { s with
    repository :=
      { s.repository with
        paths := Table.put id ⟨nodePath node, "/" ++ pathAlias⟩ s.repository.paths }
    ledger := s.ledger.recordPath id
    lastId := id }

/-- Write a node whose content type has the given fields. -/
def writeNode (s : Store) (n : NodeRecord) (accepted : Option (List String)) :
    CreatedNode × Store :=
  let (written, s) := n.fields.foldl (writeField accepted) (⟨[], []⟩, s)
  let id := s.lastId + 1
  let s := { s with
    repository :=
      { s.repository with
        nodes := Table.put id ⟨n.uuid, n.title, n.bundle, written.values⟩ s.repository.nodes }
    lastId := id }
  let s := match n.pathAlias with
    | some pathAlias => s.addAlias id pathAlias
    | none => s
  (⟨id, written.skipped⟩, { s with ledger := s.ledger.recordNode id n.uuid })

/-- Create a node. A node of the same uuid is deleted before the content type is looked at. -/
def createNode (s : Store) (n : NodeRecord) : Except StoreError CreatedNode × Store :=
  if n.title = "" then (.error (.untitledNode n.uuid), s)
  else
    match s.deleteNodeIfExists n.uuid with
    | .error e => (.error e, s)
    | .ok s =>
      match s.bundleFields n.bundle with
      | .error e => (.error e, s)
      | .ok accepted =>
        let (created, s) := s.writeNode n accepted
        (.ok created, s)

def createdNodeId? (s : Store) (uuid : String) : Option EntityId :=
  s.ledger.nodeId? uuid

/-- Write the targets of a reference field, where its node still exists. -/
def insertReference (s : Store) (w : ReferenceWrite) : Store :=
  let value := Json.Value.list (w.targetIds.map (Json.Value.ofOption .nat))
  let nodes := Table.adjust s.repository.nodes w.node fun n =>
    { n with fields := Table.put w.fieldName value n.fields }
  { s with repository := { s.repository with nodes } }

def insertReferences (s : Store) (writes : List ReferenceWrite) : Store :=
  writes.foldl insertReference s

/-- Delete everything that this run created: paths, nodes, files, tags, then vocabularies. -/
def rollback (s : Store) : Store :=
  let plan := s.ledger.rollbackPlan
  let r := { s.repository with paths := plan.paths.foldl Table.erase s.repository.paths }
  let r := plan.nodes.foldl Repository.removeNode r
  { s with
    repository :=
      { r with
        files := plan.files.foldl Table.erase r.files
        tags := plan.tags.foldl Table.erase r.tags
        vocabularies := plan.vocabularies.foldl Table.erase r.vocabularies }
    ledger := .empty }

def commit (s : Store) : Store :=
  { s with ledger := .empty }

end Store

end ContentImport
