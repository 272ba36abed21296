import ContentImport.Json.Value
import ContentImport.Store.Ledger

/-!
The repository: the entities that outlive a run, each kind in a table of its own.
-/

set_option autoImplicit false
set_option relaxedAutoImplicit false

namespace ContentImport.Store

/-- A tag of a vocabulary. -/
structure StoredTag where
  vocabularyId : String
  name : String
  parents : List EntityId
  deriving DecidableEq, Repr

/-- A node with the values of its fields. -/
structure StoredNode where
  uuid : String
  title : String
  bundle : String
  fields : Table String Json.Value
  deriving Repr

/-- Another path for the path of a node. -/
structure PathAlias where
  source : String
  path : String
  deriving DecidableEq, Repr

/-- The entities of each kind. -/
structure Repository where
  /-- The names of vocabularies. -/
  vocabularies : Table String String
  tags : Table EntityId StoredTag
  nodes : Table EntityId StoredNode
  /-- The uris of files. -/
  files : Table EntityId String
  paths : Table EntityId PathAlias
  deriving Repr

def nodePath (id : EntityId) : String :=
  "/node/" ++ toString id

namespace Repository

def empty : Repository :=
  ⟨[], [], [], [], []⟩

/-- The node with the lowest number among those of a uuid. -/
def nodeByUuid? (r : Repository) (uuid : String) : Option (EntityId × StoredNode) :=
  r.nodes.find? (·.2.uuid = uuid)

def tagsOf (r : Repository) (vocabularyId : String) : List (EntityId × StoredTag) :=
  r.tags.filter (·.2.vocabularyId = vocabularyId)

def tagId? (r : Repository) (vocabularyId name : String) : Option EntityId :=
  (r.tags.find? fun (_, tag) => tag.vocabularyId = vocabularyId && tag.name = name).map (·.1)

/-- The file with the lowest number among those of a uri. -/
def fileId? (r : Repository) (uri : String) : Option EntityId :=
  (r.files.find? (·.2 = uri)).map (·.1)

def pathsOf (r : Repository) (node : EntityId) : List EntityId :=
  (r.paths.filter (·.2.source = nodePath node)).map (·.1)

def aliasOf? (r : Repository) (node : EntityId) : Option String :=
  (r.paths.find? (·.2.source = nodePath node)).map (·.2.path)

def removeNode (r : Repository) (id : EntityId) : Repository :=
  { r with
    paths := (r.pathsOf id).foldl Table.erase r.paths
    nodes := Table.erase r.nodes id }

end Repository

end ContentImport.Store
