import ContentImport.Proofs.Table
import ContentImport.Store
import Mathlib.Logic.Relation
import Std.Data.String.ToNat

/-!
Edits: the elementary changes that writing makes to a store, each with what the store checks before
it. An operation of the store is a sequence of edits, so what every edit keeps, every operation
keeps.
-/

set_option autoImplicit false
set_option relaxedAutoImplicit false

namespace ContentImport

open ContentImport.Store

namespace Store

def nodeOfPath (source : String) : EntityId :=
  Nat.ofDigitChars 10 (source.toList.drop "/node/".length) 0

@[simp] theorem nodeOfPath_nodePath (id : EntityId) : nodeOfPath (nodePath id) = id := by
  have text : (nodePath id).toList = "/node/".toList ++ Nat.toDigits 10 id := by
    simp [nodePath, Nat.repr, String.toList_append]
  have cut : (nodePath id).toList.drop "/node/".length = Nat.toDigits 10 id := by
    rw [text]
    rfl
  rw [nodeOfPath, cut, Nat.ofDigitChars_ten_toDigits]

@[simp] theorem nodePath_inj {a b : EntityId} : nodePath a = nodePath b ↔ a = b := by
  refine ⟨fun same => ?_, fun same => same ▸ rfl⟩
  rw [← nodeOfPath_nodePath a, same, nodeOfPath_nodePath]

def putVocabulary (s : Store) (id name : String) : Store :=
  { s with
    repository := { s.repository with vocabularies := Table.put id name s.repository.vocabularies }
    ledger := s.ledger.recordVocabulary id }

def clearVocabulary (s : Store) (id : String) : Store :=
  let cleared := (s.repository.tagsOf id).map (·.1)
  { s with
    repository := { s.repository with tags := cleared.foldl Table.erase s.repository.tags }
    ledger := s.ledger.forgetTags cleared }

def putTag (s : Store) (vocabularyId name : String) : Store :=
  { s with
    repository :=
      { s.repository with
        tags := Table.put (s.lastId + 1) ⟨vocabularyId, name, []⟩ s.repository.tags }
    ledger := s.ledger.recordTag (s.lastId + 1)
    lastId := s.lastId + 1 }

def setParents (s : Store) (id : EntityId) (parents : List EntityId) : Store :=
  { s with
    repository :=
      { s.repository with
        tags := Table.adjust s.repository.tags id fun tag => { tag with parents } } }

def putFile (s : Store) (uri : String) : Store :=
  { s with
    repository :=
      { s.repository with files := Table.put (s.lastId + 1) uri s.repository.files }
    ledger := s.ledger.recordFile (s.lastId + 1)
    lastId := s.lastId + 1 }

def dropNode (s : Store) (id : EntityId) : Store :=
  { s with
    repository := s.repository.removeNode id
    ledger := s.ledger.forgetNode id (s.repository.pathsOf id) }

/-- The store with a node put behind all others, and its alias behind that. -/
def putNode (s : Store) (n : NodeRecord) (values : Table String Json.Value) : Store :=
  let id := s.lastId + 1
  let s := { s with
    repository :=
      { s.repository with
        nodes := Table.put id ⟨n.uuid, n.title, n.bundle, values⟩ s.repository.nodes }
    lastId := id }
  let s := match n.pathAlias with
    | some pathAlias => s.addAlias id pathAlias
    | none => s
  { s with ledger := s.ledger.recordNode id n.uuid }

/-- Where writing takes place: the vocabularies whose tags and the uuids whose nodes it may
change. -/
structure Scope where
  vocabularies : String → Bool
  uuids : String → Bool

def Scope.everything : Scope :=
  ⟨fun _ => true, fun _ => true⟩

/-- The elementary changes within a scope, each with what is checked before it. -/
inductive Edit (scope : Scope) (s : Store) : Store → Prop
  | putVocabulary {id : String} (name : String)
      (absent : Table.holds s.repository.vocabularies id = false) :
      Edit scope s (s.putVocabulary id name)
  | clearVocabulary {id : String} (within : scope.vocabularies id = true)
      (overwrites : s.overwrite = true) : Edit scope s (s.clearVocabulary id)
  | putTag {vocabularyId name : String} (within : scope.vocabularies vocabularyId = true)
      (named : name ≠ "") (housed : Table.holds s.repository.vocabularies vocabularyId = true) :
      Edit scope s (s.putTag vocabularyId name)
  | setParents {vocabularyId name : String} {id : EntityId}
      (within : scope.vocabularies vocabularyId = true)
      (found : s.repository.tagId? vocabularyId name = some id) (names : List String) :
      Edit scope s (s.setParents id (names.filterMap (s.repository.tagId? vocabularyId)))
  | putFile {uri : String} (absent : s.repository.fileId? uri = none) : Edit scope s (s.putFile uri)
  | dropNode {uuid : String} {id : EntityId} {node : StoredNode} (within : scope.uuids uuid = true)
      (overwrites : s.overwrite = true)
      (found : s.repository.nodeByUuid? uuid = some (id, node)) : Edit scope s (s.dropNode id)
  | putNode {n : NodeRecord} {values : Table String Json.Value} (within : scope.uuids n.uuid = true)
      (titled : n.title ≠ "") (absent : s.repository.nodeByUuid? n.uuid = none)
      (ascending : values.Ascending) : Edit scope s (s.putNode n values)

abbrev Edits (scope : Scope) : Store → Store → Prop :=
  Relation.ReflTransGen (Edit scope)

end Store

end ContentImport
