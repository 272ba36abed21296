/-!
The ledger of a run: the entities created since the last commit or rollback, in creation order.
-/

set_option autoImplicit false
set_option relaxedAutoImplicit false

namespace ContentImport.Store

/-- The number of an entity; no two entities of whatever kind share one. -/
abbrev EntityId := Nat

/-- The entities created during a run. -/
structure Ledger where
  paths : List EntityId
  /-- Nodes with the uuids under which they were created. -/
  nodes : List (EntityId × String)
  files : List EntityId
  tags : List EntityId
  vocabularies : List String
  deriving DecidableEq, Repr

/-- What a rollback has to delete, the newest entity of each kind first. -/
structure RollbackPlan where
  paths : List EntityId
  nodes : List EntityId
  files : List EntityId
  tags : List EntityId
  vocabularies : List String
  deriving DecidableEq, Repr

namespace Ledger

def empty : Ledger :=
  ⟨[], [], [], [], []⟩

def recordPath (l : Ledger) (id : EntityId) : Ledger :=
  { l with paths := l.paths ++ [id] }

def recordNode (l : Ledger) (id : EntityId) (uuid : String) : Ledger :=
  { l with nodes := l.nodes ++ [(id, uuid)] }

def recordFile (l : Ledger) (id : EntityId) : Ledger :=
  { l with files := l.files ++ [id] }

def recordTag (l : Ledger) (id : EntityId) : Ledger :=
  { l with tags := l.tags ++ [id] }

def recordVocabulary (l : Ledger) (id : String) : Ledger :=
  { l with vocabularies := l.vocabularies ++ [id] }

def forgetNode (l : Ledger) (id : EntityId) (paths : List EntityId) : Ledger :=
  { l with
    nodes := l.nodes.filter (·.1 ≠ id)
    paths := l.paths.filter (· ∉ paths) }

def forgetTags (l : Ledger) (ids : List EntityId) : Ledger :=
  { l with tags := l.tags.filter (· ∉ ids) }

def nodeId? (l : Ledger) (uuid : String) : Option EntityId :=
  (l.nodes.find? (·.2 = uuid)).map (·.1)

def rollbackPlan (l : Ledger) : RollbackPlan :=
  ⟨l.paths.reverse, (l.nodes.map (·.1)).reverse, l.files.reverse, l.tags.reverse,
    l.vocabularies.reverse⟩

end Ledger

end ContentImport.Store
