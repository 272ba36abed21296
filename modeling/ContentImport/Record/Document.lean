import ContentImport.Json.Record
import ContentImport.Record

/-!
Documents of records in JSON. A document lists vocabularies and nodes; a field that is null, or
whose `value` is null, is left out, and the references of a field have to be of its kind.
-/

set_option autoImplicit false
set_option relaxedAutoImplicit false

namespace ContentImport

open ContentImport.Json

/-- Why a document cannot be read. -/
inductive DocumentFault where
  /-- It is no JSON, or not of the shape of a document. -/
  | malformed
  /-- The value of a field of a node is not of the kind of its references. -/
  | mismatchedField (fieldName title : String)
  deriving DecidableEq, Repr

/-- The records of a document. -/
structure Document where
  vocabularies : List VocabularyRecord
  nodes : List NodeRecord

namespace Document

/-- A field as it is given. -/
structure GivenField where
  fieldName : String
  value : Value
  references : Option ReferenceKind

/-- A node as it is given. -/
structure GivenNode where
  title : String
  bundle : String
  pathAlias : Option String
  uuid : Option String
  fields : List GivenField

/-- How deep the value of a field may be nested: the limit of a document without the five levels
around it. -/
def fieldNesting : Nat := maxNesting - 5

def readText? (v : Written) : Option String :=
  Readable.text? v

/-- Read a kind of reference: its name, or an object with the name for its only key and null. -/
def readKind? (v : Written) : Option ReferenceKind :=
  match Readable.members? v with
  | some [(key, member)] => if Readable.isNull member then ReferenceKind.ofTag? key else none
  | some _ => none
  | none => readText? v >>= ReferenceKind.ofTag?

def readTag? (vid : String) (v : Written) : Option TagRecord := do
  match ← Slot.ofRecord? ["name", "parents"] v with
  | [name, parents] =>
    let name ← name.required readText?
    let parents ← parents.defaulted [] (listOf? readText?)
    pure ⟨vid, name, parents⟩
  | _ => none

/-- Read a vocabulary; one without a name takes its identifier for it. -/
def readVocabulary? (v : Written) : Option VocabularyRecord := do
  match ← Slot.ofRecord? ["vid", "name", "tags"] v with
  | [vid, name, tags] =>
    let vid ← vid.required readText?
    let name ← name.optional readText?
    let tags ← tags.defaulted [] (listOf? (readTag? vid))
    pure ⟨vid, name.getD vid, tags⟩
  | _ => none

def readField? (v : Written) : Option GivenField := do
  match ← Slot.ofRecord? ["field_name", "value", "references"] v with
  | [fieldName, value, references] =>
    let fieldName ← fieldName.required readText?
    let value ← value.defaulted .null (Written.value? fieldNesting)
    let references ← references.optional readKind?
    pure ⟨fieldName, value, references⟩
  | _ => none

def readNode? (v : Written) : Option GivenNode := do
  match ← Slot.ofRecord? ["title", "type", "alias", "uuid", "fields"] v with
  | [title, bundle, pathAlias, uuid, fields] =>
    let title ← title.required readText?
    let bundle ← bundle.required readText?
    let pathAlias ← pathAlias.optional readText?
    let uuid ← uuid.optional readText?
    let fields ← fields.defaulted [] (listOf? readField?)
    pure ⟨title, bundle, pathAlias, uuid, fields⟩
  | _ => none

/-- Read a document up to the values of its fields. -/
def read? (v : Written) : Option (List VocabularyRecord × List GivenNode) := do
  match ← Slot.ofRecord? ["vocabularies", "nodes"] v with
  | [vocabularies, nodes] =>
    let vocabularies ← vocabularies.defaulted [] (listOf? readVocabulary?)
    let nodes ← nodes.defaulted [] (listOf? readNode?)
    pure (vocabularies, nodes)
  | _ => none

def isUnset (v : Value) : Bool :=
  v.isNull || (v.member? "value").any Value.isNull

def tagRef? (v : Value) : Option FieldItem := do
  match ← Slot.ofRecord? ["vid", "name"] v with
  | [vid, name] =>
    let vid ← vid.required Value.text?
    let name ← name.required Value.text?
    pure (.tag ⟨vid, name⟩)
  | _ => none

def fileRef? (v : Value) : Option FieldItem := do
  match ← Slot.ofRecord? ["uri"] v with
  | [uri] => (uri.required Value.text?).map .file
  | _ => none

def item? : ReferenceKind → Value → Option FieldItem
  | .node, v => v.text?.map .node
  | .taxonomyTerm, v => tagRef? v
  | .file, v => fileRef? v

/-- The references of a kind that a value lists; a value that is no list is one reference. -/
def items? (kind : ReferenceKind) (v : Value) : Option (List FieldItem) :=
  match v with
  | .list items => items.mapM (item? kind)
  | single => (item? kind single).map ([·])

def fieldRecord (title : String) (f : GivenField) : Except DocumentFault (Option FieldRecord) :=
  if isUnset f.value then .ok none
  else
    match f.references with
    | none => .ok (some (.named f.fieldName (.json f.value) none))
    | some kind =>
      match items? kind f.value with
      | some items => .ok (some (.named f.fieldName (.references items) (some kind)))
      | none => .error (.mismatchedField f.fieldName title)

def nodeRecord (n : GivenNode) : Except DocumentFault NodeRecord := do
  let fields ← n.fields.mapM (fieldRecord n.title)
  pure (((NodeRecord.titled n.title n.bundle n.uuid).withAlias n.pathAlias).withFields
    (fields.filterMap id))

def ofText (s : List Char) : Except DocumentFault Document :=
  match Written.ofText? s >>= read? with
  | none => .error .malformed
  | some (vocabularies, given) => do
    let nodes ← given.mapM nodeRecord
    pure ⟨vocabularies, nodes⟩

end Document

end ContentImport
