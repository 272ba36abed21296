import ContentImport.Import
import ContentImport.Proofs.Json.Tree

/-!
Records that were written as JSON and are read again. The fields that an ontology is mapped to are
of four forms. Each is read as it was written, but for a body without text, which is unset, and for
references that are not all of the kind of their field, which no document may have. Vocabularies are
written in another shape than the one that documents have.
-/

set_option autoImplicit false
set_option relaxedAutoImplicit false

namespace ContentImport

open ContentImport.Json

def Json.Value.sorted : Value → Value
  | .object members => .object (Table.ofEntries members)
  | v => v

/-! ## References -/

def FieldItem.isOf : ReferenceKind → FieldItem → Bool
  | .node, .node _ => true
  | .node, .literal _ => true
  | .taxonomyTerm, .tag _ => true
  | .file, .file _ => true
  | _, _ => false

/-- A reference as it is read again; a literal is written as a node is. -/
def FieldItem.reread : FieldItem → FieldItem
  | .literal value => .node value
  | item => item

namespace Document

private theorem value?_item (depth : Nat) (item : FieldItem) :
    item.toJson.written.value? (depth + 1) = some item.toJson.sorted := by
  cases item <;> rfl

private theorem item?_sorted (kind : ReferenceKind) (item : FieldItem) :
    item? kind item.toJson.sorted = if item.isOf kind then some item.reread else none := by
  have tag : ∀ ref : TagRef, (FieldItem.tag ref).toJson.sorted =
      .object [("name", .text ref.name), ("vid", .text ref.vocabularyId)] := by
    intro ref
    simp only [FieldItem.toJson, Value.sorted, Table.ofEntries, List.foldl_cons, List.foldl_nil,
      Table.put, String.reduceEq, String.reduceLT, ↓reduceIte]
  have file : ∀ uri, (FieldItem.file uri).toJson.sorted = .object [("uri", .text uri)] :=
    fun _ => rfl
  cases item with
  | node uuid => cases kind <;> rfl
  | literal value => cases kind <;> rfl
  | tag ref =>
    rw [tag]
    cases kind <;> simp [item?, tagRef?, fileRef?, Slot.ofRecord?, Slot.ofMember?, Readable.items?,
      Readable.members?, Value.items?, Value.text?, Slot.required, FieldItem.isOf,
      FieldItem.reread]
  | file uri =>
    rw [file]
    cases kind <;> simp [item?, tagRef?, fileRef?, Slot.ofRecord?, Slot.ofMember?, Readable.items?,
      Readable.members?, Value.items?, Value.text?, Slot.required, FieldItem.isOf,
      FieldItem.reread]

theorem items?_sorted (kind : ReferenceKind) (items : List FieldItem) :
    items? kind (.list (items.map fun item => item.toJson.sorted)) =
      if items.all (·.isOf kind) then some (items.map FieldItem.reread) else none := by
  rw [items?, List.mapM_map]
  exact mapM_guarded _ fun item _ => item?_sorted kind item

theorem isUnset_sorted_body (b : BodyValue) : isUnset b.toJson.sorted = isUnset b.toJson := by
  have sorted : b.toJson.sorted = .object [("format", .text b.format),
      ("summary", .ofOption .text b.summary), ("value", .ofOption .text b.value)] := by
    simp only [BodyValue.toJson, Value.sorted, Table.ofEntries, List.foldl_cons, List.foldl_nil,
      Table.put, String.reduceEq, String.reduceLT, ↓reduceIte]
  rw [sorted]
  simp [BodyValue.toJson, isUnset, Value.member?, Table.get?, Value.isNull]

end Document

/-! ## Fields -/

/-- A value as a document gives it: the members of each object in order of keys. -/
def FieldValue.given : FieldValue → Value
  | .references items => .list (items.map fun item => item.toJson.sorted)
  | other => other.toJson.sorted

namespace FieldRecord

/-- The fields that an ontology is mapped to. -/
inductive Mapped : FieldRecord → Prop
  | body (name : String) (b : BodyValue) : Mapped (.named name (.body b) none)
  | literals (name : String) (values : List String) : Mapped (.named name (.literals values) none)
  | texts (name : String) (items : List FieldItem)
      (plain : ∀ item ∈ items, ∃ text, item = .literal text) :
      Mapped (.named name (.references items) none)
  | references (name : String) (items : List FieldItem) (kind : ReferenceKind) :
      Mapped (.named name (.references items) (some kind))

/-- Whether the references of a field are all of its kind. -/
def isUniform (f : FieldRecord) : Bool :=
  match f.value, f.references with
  | .references items, some kind => items.all (·.isOf kind)
  | _, _ => true

def isUnset (f : FieldRecord) : Bool :=
  Document.isUnset f.value.given

def reread (f : FieldRecord) : Option FieldRecord :=
  if f.isUnset then none
  else
    match f.value, f.references with
    | .references items, some _ =>
      some { f with value := .references (items.map FieldItem.reread) }
    | _, _ => some { f with value := .json f.value.given }

def given (f : FieldRecord) : Document.GivenField :=
  ⟨f.fieldName, f.value.given, f.references⟩

variable {f : FieldRecord}

theorem named_named (name : String) (v w : FieldValue) (r q : Option ReferenceKind) :
    named (named name v r).fieldName w q = named name w q := by
  simp [named, List.take_take]

private theorem Mapped.named (mapped : f.Mapped) (w : FieldValue) (q : Option ReferenceKind) :
    FieldRecord.named f.fieldName w q = { f with value := w, references := q } := by
  cases mapped <;> exact named_named ..

private theorem isWordy_items (items : List FieldItem) :
    (Value.list (items.map FieldItem.toJson)).isWordy = true :=
  isWordy_list_map fun item _ => by cases item <;> rfl

private theorem Mapped.isWordy (mapped : f.Mapped) : f.toJson.isWordy = true := by
  have value : f.value.toJson.isWordy = true := by
    cases mapped with
    | body name b =>
      obtain ⟨value, summary, format⟩ := b
      cases value <;> cases summary <;> rfl
    | literals name values => exact Value.isWordy_texts values
    | texts name items => exact isWordy_items items
    | references name items kind => exact isWordy_items items
  cases kind : f.references <;>
    simp [toJson, optionalMember, kind, Value.isWordy, areWordyMembers, value]

private theorem Mapped.value?_written (mapped : f.Mapped) :
    f.value.toJson.written.value? Document.fieldNesting = some f.value.given := by
  have depth : Document.fieldNesting = 120 + 1 + 1 := rfl
  have references : ∀ items : List FieldItem,
      (Value.list (items.map FieldItem.toJson)).written.value? (120 + 1 + 1) =
        some (.list (items.map fun item => item.toJson.sorted)) := by
    intro items
    rw [value?_list, List.mapM_map]
    exact congrArg (Option.map Value.list)
      (mapM_eq_some_map fun item _ => Document.value?_item 120 item)
  have texts : ∀ values : List String,
      (Value.texts values).written.value? (120 + 1 + 1) = some (Value.texts values) := by
    intro values
    rw [Value.texts, value?_list, List.mapM_map]
    exact congrArg (Option.map Value.list) (mapM_eq_some_map fun _ _ => rfl)
  rw [depth]
  cases mapped with
  | body name b =>
    obtain ⟨value, summary, format⟩ := b
    cases value <;> cases summary <;> rfl
  | literals name values => exact texts values
  | texts name items => exact references items
  | references name items kind => exact references items

private theorem Mapped.readField?_written (mapped : f.Mapped) :
    Document.readField? f.toJson.written = some f.given := by
  obtain ⟨name, v, kind⟩ := f
  have value : v.toJson.written.value? Document.fieldNesting = some v.given :=
    mapped.value?_written
  have text : Document.readText? (Value.text name).written = some name := rfl
  rw [Document.readField?, toJson, ofRecord?_written]
  cases kind with
  | none =>
    simp [optionalMember, Slot.ofMember?, Slot.required, Slot.defaulted, Slot.optional, text, value,
      given]
  | some k =>
    have tag : Document.readKind? (Value.text k.tag).written = some k := by cases k <;> rfl
    have present : Readable.isNull (Value.text k.tag).written = false := rfl
    simp [optionalMember, Slot.ofMember?, Slot.required, Slot.defaulted, Slot.optional, text, value,
      given, tag, present]

private theorem Mapped.references_of_kind (mapped : f.Mapped) (kind : ReferenceKind)
    (referring : f.references = some kind) : ∃ items, f.value = .references items := by
  cases mapped with
  | references name items _ => exact ⟨items, rfl⟩
  | _ => cases referring

private theorem Mapped.fieldRecord_given (mapped : f.Mapped) (title : String) :
    Document.fieldRecord title f.given =
      if f.isUniform then .ok f.reread else .error (.mismatchedField f.fieldName title) := by
  have cut := mapped.named
  have referring := mapped.references_of_kind
  obtain ⟨name, v, kind⟩ := f
  cases kind with
  | none =>
    have uniform : isUniform ⟨name, v, none⟩ = true := by simp [isUniform]
    have again : reread ⟨name, v, none⟩ =
        if Document.isUnset v.given then none else some ⟨name, .json v.given, none⟩ := by
      simp [reread, isUnset]
    rw [if_pos uniform, again, Document.fieldRecord]
    simp only [given, cut]
    split <;> rfl
  | some kind =>
    obtain ⟨items, rfl⟩ := referring kind rfl
    have set : Document.isUnset (FieldValue.references items).given = false := rfl
    have again : reread ⟨name, .references items, some kind⟩ =
        some ⟨name, .references (items.map FieldItem.reread), some kind⟩ := by
      simp [reread, isUnset, set]
    have read : Document.items? kind (FieldValue.references items).given =
        if items.all (·.isOf kind) then some (items.map FieldItem.reread) else none :=
      Document.items?_sorted kind items
    have all : isUniform ⟨name, .references items, some kind⟩ = items.all (·.isOf kind) := rfl
    rw [again, all, Document.fieldRecord]
    simp only [given, set, read, cut, Bool.false_eq_true, if_false]
    by_cases uniform : items.all (·.isOf kind) = true
    · rw [if_pos uniform, if_pos uniform]
    · rw [if_neg uniform, if_neg uniform]

end FieldRecord

/-! ## Nodes -/

namespace NodeRecord

/-- The nodes that an ontology is mapped to: whatever can be unset is the first field. -/
structure Mapped (n : NodeRecord) : Prop where
  fields : ∀ f ∈ n.fields, f.Mapped
  others : ∀ f ∈ n.fields.tail, f.isUnset = false
  aliased : n.pathAlias ≠ some ""
  identified : n.uuid ≠ ""

/-- Whether the references of each field are all of its kind. -/
def isUniform (n : NodeRecord) : Bool :=
  n.fields.all FieldRecord.isUniform

def reread (n : NodeRecord) : NodeRecord :=
  { n with fields := n.fields.filterMap FieldRecord.reread }

def given (n : NodeRecord) : Document.GivenNode :=
  ⟨n.title, n.bundle, n.pathAlias, some n.uuid, n.fields.map FieldRecord.given⟩

variable {n : NodeRecord}

theorem filter_pathAlias (aliased : n.pathAlias ≠ some "") :
    n.pathAlias.filter (· ≠ "") = n.pathAlias := by
  cases text : n.pathAlias with
  | none => rfl
  | some pathAlias =>
    rw [Option.filter_eq_some_iff]
    exact ⟨rfl, decide_eq_true fun empty => aliased (empty ▸ text)⟩

private theorem Mapped.isWordy (mapped : n.Mapped) : n.toJson.isWordy = true := by
  have fields : (Value.list (n.fields.map FieldRecord.toJson)).isWordy = true :=
    isWordy_list_map fun f held => (mapped.fields f held).isWordy
  rw [Value.isWordy] at fields
  cases text : n.pathAlias <;>
    simp [toJson, optionalMember, text, Value.isWordy, areWordyMembers, fields]

private theorem Mapped.readNode?_written (mapped : n.Mapped) :
    Document.readNode? n.toJson.written = some n.given := by
  have text : ∀ s, Document.readText? (Value.text s).written = some s := fun _ => rfl
  have present : ∀ s, Readable.isNull (Value.text s).written = false := fun _ => rfl
  have fields : listOf? Document.readField? (Value.list (n.fields.map FieldRecord.toJson)).written =
      some (n.fields.map FieldRecord.given) := by
    rw [listOf?_written, List.mapM_map]
    exact mapM_eq_some_map fun f held => (mapped.fields f held).readField?_written
  rw [Document.readNode?, toJson, ofRecord?_written]
  cases named : n.pathAlias with
  | none =>
    simp [optionalMember, Slot.ofMember?, Slot.required, Slot.defaulted, Slot.optional, text,
      present, fields, given, named]
  | some pathAlias =>
    simp [optionalMember, Slot.ofMember?, Slot.required, Slot.defaulted, Slot.optional, text,
      present, fields, given, named]

end NodeRecord

private theorem toOption_bind {α β ε : Type} (outcome : Except ε α) (next : α → Except ε β) :
    (outcome >>= next).toOption = outcome.toOption.bind fun a => (next a).toOption := by
  cases outcome <;> rfl

private theorem toOption_mapM {α β ε : Type} (read : α → Except ε β) (items : List α) :
    (items.mapM read).toOption = items.mapM fun item => (read item).toOption := by
  induction items with
  | nil => rfl
  | cons item items ih =>
    rw [List.mapM_cons, List.mapM_cons, toOption_bind, ← ih]
    simp only [toOption_bind]
    rfl

namespace NodeRecord.Mapped

variable {n : NodeRecord}

private theorem withFields_given (mapped : n.Mapped) :
    ((titled n.title n.bundle (some n.uuid)).withAlias n.pathAlias).withFields
      ((n.fields.map FieldRecord.reread).filterMap id) = n.reread := by
  have identified : (some n.uuid).filter (· ≠ "") = some n.uuid := by
    rw [Option.filter_eq_some_iff]
    exact ⟨rfl, decide_eq_true mapped.identified⟩
  rw [withFields, withAlias, titled, identified, filter_pathAlias mapped.aliased,
    List.filterMap_map]
  rfl

private theorem nodeRecord_given (mapped : n.Mapped) :
    (Document.nodeRecord n.given).toOption = if n.isUniform then some n.reread else none := by
  have fields : ((n.fields.map FieldRecord.given).mapM (Document.fieldRecord n.title)).toOption =
      if n.isUniform then some (n.fields.map FieldRecord.reread) else none := by
    rw [toOption_mapM, List.mapM_map]
    refine mapM_guarded _ fun f held => ?_
    rw [Function.comp_apply, (mapped.fields f held).fieldRecord_given]
    split <;> rfl
  rw [Document.nodeRecord, toOption_bind]
  simp only [given, fields]
  split
  · exact congrArg some mapped.withFields_given
  · rfl

end NodeRecord.Mapped

/-! ## Vocabularies -/

private theorem TagRecord.isWordy_toJson (t : TagRecord) : t.toJson.isWordy = true := by
  have parents := Value.isWordy_texts t.parentNames
  simp [toJson, Value.isWordy, areWordyMembers, parents]

private theorem VocabularyRecord.isWordy_toJson (v : VocabularyRecord) :
    v.toJson.isWordy = true := by
  have tags : (Value.list (v.tags.map TagRecord.toJson)).isWordy = true :=
    isWordy_list_map fun t _ => t.isWordy_toJson
  rw [Value.isWordy] at tags
  simp [toJson, Value.isWordy, areWordyMembers, tags]

private theorem VocabularyRecord.readVocabulary?_written (v : VocabularyRecord) :
    Document.readVocabulary? v.toJson.written = none := by
  rw [Document.readVocabulary?, toJson, ofRecord?_written]
  simp [Slot.ofMember?, Slot.required]

/-! ## Dumps -/

namespace RecordDump

variable {d : RecordDump}

private theorem isWordy_toJson (mapped : ∀ n ∈ d.nodes, n.Mapped) : d.toJson.isWordy = true := by
  have vocabularies : (Value.list (d.vocabularies.map VocabularyRecord.toJson)).isWordy = true :=
    isWordy_list_map fun v _ => v.isWordy_toJson
  have nodes : (Value.list (d.nodes.map NodeRecord.toJson)).isWordy = true :=
    isWordy_list_map fun n held => (mapped n held).isWordy
  rw [toJson, Value.isWordy]
  simp only [areWordyMembers, vocabularies, nodes, Value.isWordy_texts, Bool.and_self]

private theorem read?_written (mapped : ∀ n ∈ d.nodes, n.Mapped) :
    Document.read? d.toJson.written =
      if d.vocabularies.isEmpty then some ([], d.nodes.map NodeRecord.given) else none := by
  have vocabularies : listOf? Document.readVocabulary?
      (Value.list (d.vocabularies.map VocabularyRecord.toJson)).written =
        if d.vocabularies.isEmpty then some [] else none := by
    rw [listOf?_written, List.mapM_map]
    cases d.vocabularies with
    | nil => rfl
    | cons v others =>
      rw [List.mapM_cons, Function.comp_apply, v.readVocabulary?_written]
      rfl
  have nodes : listOf? Document.readNode? (Value.list (d.nodes.map NodeRecord.toJson)).written =
      some (d.nodes.map NodeRecord.given) := by
    rw [listOf?_written, List.mapM_map]
    exact mapM_eq_some_map fun n held => (mapped n held).readNode?_written
  rw [Document.read?, toJson, ofRecord?_written]
  simp only [List.map_cons, List.map_nil, List.mapM_cons, List.mapM_nil, List.filter_nil,
    List.filter_cons_of_pos, List.filter_cons_of_neg, Slot.ofMember?, Slot.defaulted, decide_true,
    decide_false, String.reduceEq, Bool.false_eq_true, not_false_eq_true, Option.pure_def,
    Option.bind_eq_bind, Option.bind_some, vocabularies, nodes]
  split <;> rfl

/-- A dump is read as a document when it has no vocabularies and the references of every field are
of its kind. -/
theorem toOption_ofText {layout : Layout} (blank : layout.Blank) (level : Nat)
    (mapped : ∀ n ∈ d.nodes, n.Mapped) :
    (Document.ofText (d.toJson.toTextAt layout level).toList).toOption =
      if d.vocabularies.isEmpty && d.nodes.all NodeRecord.isUniform then
        some ⟨[], d.nodes.map NodeRecord.reread⟩
      else none := by
  have nodes : ((d.nodes.map NodeRecord.given).mapM Document.nodeRecord).toOption =
      if d.nodes.all NodeRecord.isUniform then some (d.nodes.map NodeRecord.reread) else none := by
    rw [toOption_mapM, List.mapM_map]
    exact mapM_guarded _ fun n held => (mapped n held).nodeRecord_given
  rw [Document.ofText, Written.ofText?_toTextAt blank level (isWordy_toJson mapped),
    Option.bind_eq_bind, Option.bind_some, read?_written mapped]
  cases d.vocabularies.isEmpty with
  | false => rfl
  | true =>
    simp only [if_true, Bool.true_and]
    rw [toOption_bind, nodes]
    split <;> rfl

end RecordDump

end ContentImport
