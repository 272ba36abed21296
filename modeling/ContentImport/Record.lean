import ContentImport.Json.Value

/-!
Records: what a source is mapped to before anything is stored. A vocabulary record lists tags, a
node record lists fields, and a field holds a body, texts, references or a value taken as it is.
-/

set_option autoImplicit false
set_option relaxedAutoImplicit false

namespace ContentImport

def maxFieldNameLength : Nat := 32

/-- What a reference field points at. -/
inductive ReferenceKind where
  | node
  | taxonomyTerm
  | file
  deriving DecidableEq, Repr

namespace ReferenceKind

/-- Whether the targets exist only once every entity is created. -/
def isDeferred : ReferenceKind → Bool
  | .node => true
  | .taxonomyTerm => true
  | .file => false

def tag : ReferenceKind → String
  | .node => "node"
  | .taxonomyTerm => "taxonomy_term"
  | .file => "file"

def ofTag? : String → Option ReferenceKind
  | "node" => some .node
  | "taxonomy_term" => some .taxonomyTerm
  | "file" => some .file
  | _ => none

end ReferenceKind

/-- A tag by its vocabulary and its name. -/
structure TagRef where
  vocabularyId : String
  name : String
  deriving DecidableEq, Repr

/-- One of the references of a field. -/
inductive FieldItem where
  /-- A node by its uuid. -/
  | node (uuid : String)
  | tag (ref : TagRef)
  /-- A file by its uri. -/
  | file (uri : String)
  /-- A value that a generic entity stands for. -/
  | literal (value : String)
  deriving DecidableEq, Repr

/-- The text of a node. -/
structure BodyValue where
  value : Option String
  summary : Option String
  format : String
  deriving DecidableEq, Repr

def BodyValue.fullHtml (value summary : Option String) : BodyValue :=
  ⟨value, summary, "full_html"⟩

/-- What a field holds. -/
inductive FieldValue where
  | body (b : BodyValue)
  | literals (values : List String)
  | references (items : List FieldItem)
  /-- A value taken as it is from a document. -/
  | json (v : Json.Value)

/-- A field of a node. -/
structure FieldRecord where
  fieldName : String
  value : FieldValue
  references : Option ReferenceKind

namespace FieldRecord

/-- A field with its name cut to the greatest length. -/
def named (fieldName : String) (value : FieldValue) (references : Option ReferenceKind) :
    FieldRecord :=
  ⟨String.ofList (fieldName.toList.take maxFieldNameLength), value, references⟩

/-- The targets of a field whose references wait for other entities. -/
def deferredTargets? (f : FieldRecord) : Option (List FieldItem) :=
  match f.value, f.references with
  | .references items, some kind => if kind.isDeferred then some items else none
  | _, _ => none

end FieldRecord

/-- A node. -/
structure NodeRecord where
  title : String
  bundle : String
  /-- Another path for the node. -/
  pathAlias : Option String
  uuid : String
  fields : List FieldRecord

namespace NodeRecord

/-- A node without alias and fields. One without a uuid takes its title for it. -/
def titled (title bundle : String) (uuid : Option String) : NodeRecord :=
  ⟨title, bundle, none, (uuid.filter (· ≠ "")).getD title, []⟩

/-- The node with an alias, unless that is empty. -/
def withAlias (n : NodeRecord) (pathAlias : Option String) : NodeRecord :=
  { n with pathAlias := pathAlias.filter (· ≠ "") }

def withFields (n : NodeRecord) (fields : List FieldRecord) : NodeRecord :=
  { n with fields }

def field? (n : NodeRecord) (name : String) : Option FieldRecord :=
  n.fields.find? (·.fieldName = name)

end NodeRecord

/-- A tag of a vocabulary. -/
structure TagRecord where
  vocabularyId : String
  name : String
  parentNames : List String
  deriving DecidableEq, Repr

/-- The parents of a tag, by name. -/
structure TagParents where
  name : String
  parents : List String
  deriving DecidableEq, Repr

/-- A vocabulary with its tags. -/
structure VocabularyRecord where
  vocabularyId : String
  name : String
  tags : List TagRecord
  deriving DecidableEq, Repr

def VocabularyRecord.tagParents (v : VocabularyRecord) : List TagParents :=
  (v.tags.filter (!·.parentNames.isEmpty)).map fun tag => ⟨tag.name, tag.parentNames⟩

end ContentImport
