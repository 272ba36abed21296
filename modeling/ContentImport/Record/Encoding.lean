import ContentImport.Record

/-!
Records as JSON, in the shapes that a document of records has.
-/

set_option autoImplicit false
set_option relaxedAutoImplicit false

namespace ContentImport

open ContentImport.Json (Value)

/-- A reference: the text of a node or a literal, the parts of a tag or a file. -/
def FieldItem.toJson : FieldItem → Value
  | .node uuid => .text uuid
  | .tag ref => .object [("vid", .text ref.vocabularyId), ("name", .text ref.name)]
  | .file uri => .object [("uri", .text uri)]
  | .literal value => .text value

def BodyValue.toJson (b : BodyValue) : Value :=
  .object [("value", .ofOption .text b.value), ("summary", .ofOption .text b.summary),
    ("format", .text b.format)]

def FieldValue.toJson : FieldValue → Value
  | .body b => b.toJson
  | .literals values => .texts values
  | .references items => .list (items.map FieldItem.toJson)
  | .json v => v

def optionalMember (key : String) (value : Option Value) : List (String × Value) :=
  (value.map (key, ·)).toList

/-- A field; the kind of its references is left out when it has none. -/
def FieldRecord.toJson (f : FieldRecord) : Value :=
  .object <| [("field_name", .text f.fieldName), ("value", f.value.toJson)] ++
    optionalMember "references" (f.references.map fun kind => .text kind.tag)

/-- A node; the alias is left out when it has none. -/
def NodeRecord.toJson (n : NodeRecord) : Value :=
  .object <| [("title", .text n.title), ("type", .text n.bundle)] ++
    optionalMember "alias" (n.pathAlias.map .text) ++
    [("uuid", .text n.uuid), ("fields", .list (n.fields.map FieldRecord.toJson))]

def TagRecord.toJson (t : TagRecord) : Value :=
  .object [("vocabulary_id", .text t.vocabularyId), ("name", .text t.name),
    ("parent_names", .texts t.parentNames)]

def TagParents.toJson (t : TagParents) : Value :=
  .object [("name", .text t.name), ("parents", .texts t.parents)]

def VocabularyRecord.toJson (v : VocabularyRecord) : Value :=
  .object [("vocabulary_id", .text v.vocabularyId), ("name", .text v.name),
    ("tags", .list (v.tags.map TagRecord.toJson))]

end ContentImport
