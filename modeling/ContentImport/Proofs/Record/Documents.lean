import ContentImport.Proofs.Json.Meaning
import ContentImport.Proofs.Record.Reread

/-!
Documents that are written as JSON and are read again. The fields of a document are of two forms, a
value taken as it is and references of one kind, and what reading does to names, uuids and aliases it
does only once. So the nodes of a document, written as a document of their own, are read as the same
nodes.
-/

set_option autoImplicit false
set_option relaxedAutoImplicit false

namespace ContentImport

open ContentImport.Json

def nodesToJson (nodes : List NodeRecord) : Value :=
  .object [("nodes", .list (nodes.map NodeRecord.toJson))]

namespace Document

def ofWritten (w : Written) : Except DocumentFault Document :=
  match read? w with
  | none => .error .malformed
  | some (vocabularies, given) => do
    let nodes ← given.mapM nodeRecord
    pure ⟨vocabularies, nodes⟩

private theorem ofText_eq_ok {text : List Char} {d : Document} :
    ofText text = .ok d ↔ ∃ w, Written.ofText? text = some w ∧ ofWritten w = .ok d := by
  unfold ofText ofWritten
  cases Written.ofText? text with
  | none => exact iff_of_false (fun made => nomatch made) fun ⟨_, found, _⟩ => nomatch found
  | some w => exact ⟨fun made => ⟨w, rfl, made⟩, fun ⟨_, same, made⟩ => Option.some.inj same ▸ made⟩

end Document

/-! ## What is read -/

/-- The fields that a document can have. -/
inductive FieldRecord.Documented : FieldRecord → Prop
  | json (name : String) {w : Written} {v : Value}
      (read : w.value? Document.fieldNesting = some v) (set : Document.isUnset v = false) :
      Documented (.named name (.json v) none)
  | references (name : String) {items : List FieldItem} (kind : ReferenceKind)
      (uniform : ∀ item ∈ items, item.isOf kind = true ∧ item.reread = item) :
      Documented (.named name (.references items) (some kind))

/-- The nodes that a document can have. -/
structure NodeRecord.Documented (n : NodeRecord) : Prop where
  fields : ∀ f ∈ n.fields, f.Documented
  aliased : n.pathAlias ≠ some ""
  identified : n.uuid = "" → n.title = ""

private theorem exists_of_mem_listOf? {α β : Type} [Readable α] {read : α → Option β} {v : α}
    {results : List β} (made : listOf? read v = some results) :
    ∀ r ∈ results, ∃ item, read item = some r := by
  obtain ⟨items, -, each⟩ := Option.bind_eq_some_iff.mp made
  intro r listed
  obtain ⟨item, -, read⟩ := Attempt.exists_of_mem_right (Attempt.mapM_eq_some.mp each) r listed
  exact ⟨item, read⟩

private theorem Json.Slot.defaulted_eq_some {α β : Type} {slot : Slot α} {ownValue result : β}
    {read : α → Option β} (made : slot.defaulted ownValue read = some result) :
    result = ownValue ∨ ∃ v, read v = some result := by
  cases slot with
  | given v => exact .inr ⟨v, made⟩
  | unnamed => exact .inl (Option.some.inj made).symm
  | beyond => exact .inl (Option.some.inj made).symm

namespace Document

private theorem item?_eq_some {kind : ReferenceKind} {v : Value} {item : FieldItem}
    (read : item? kind v = some item) : item.isOf kind = true ∧ item.reread = item := by
  cases kind with
  | node =>
    obtain ⟨uuid, -, rfl⟩ := Option.map_eq_some_iff.mp read
    exact ⟨rfl, rfl⟩
  | file =>
    rw [item?, fileRef?] at read
    obtain ⟨slots, -, read⟩ := Option.bind_eq_some_iff.mp read
    split at read
    · obtain ⟨uri, -, rfl⟩ := Option.map_eq_some_iff.mp read
      exact ⟨rfl, rfl⟩
    · cases read
  | taxonomyTerm =>
    rw [item?, tagRef?] at read
    obtain ⟨slots, -, read⟩ := Option.bind_eq_some_iff.mp read
    split at read
    · obtain ⟨vid, -, read⟩ := Option.bind_eq_some_iff.mp read
      obtain ⟨name, -, read⟩ := Option.bind_eq_some_iff.mp read
      obtain rfl := Option.some.inj read
      exact ⟨rfl, rfl⟩
    · cases read

private theorem items?_eq_some {kind : ReferenceKind} {v : Value} {items : List FieldItem}
    (read : items? kind v = some items) :
    ∀ item ∈ items, item.isOf kind = true ∧ item.reread = item := by
  unfold items? at read
  split at read
  · intro item listed
    obtain ⟨v, -, found⟩ := Attempt.exists_of_mem_right (Attempt.mapM_eq_some.mp read) item listed
    exact item?_eq_some found
  · obtain ⟨item, found, rfl⟩ := Option.map_eq_some_iff.mp read
    exact List.forall_mem_singleton.mpr (item?_eq_some found)

private theorem value_of_readField? {w : Written} {g : GivenField} (read : readField? w = some g) :
    ∃ tree : Written, tree.value? fieldNesting = some g.value := by
  rw [readField?] at read
  obtain ⟨slots, -, read⟩ := Option.bind_eq_some_iff.mp read
  split at read
  · obtain ⟨name, -, read⟩ := Option.bind_eq_some_iff.mp read
    obtain ⟨value, given, read⟩ := Option.bind_eq_some_iff.mp read
    obtain ⟨kind, -, read⟩ := Option.bind_eq_some_iff.mp read
    obtain rfl := Option.some.inj read
    rcases Slot.defaulted_eq_some given with rfl | found
    · exact ⟨.null, rfl⟩
    · exact found
  · cases read

private theorem fields_of_readNode? {w : Written} {g : GivenNode} (read : readNode? w = some g) :
    ∀ f ∈ g.fields, ∃ tree : Written, tree.value? fieldNesting = some f.value := by
  rw [readNode?] at read
  obtain ⟨slots, -, read⟩ := Option.bind_eq_some_iff.mp read
  split at read
  · obtain ⟨title, -, read⟩ := Option.bind_eq_some_iff.mp read
    obtain ⟨bundle, -, read⟩ := Option.bind_eq_some_iff.mp read
    obtain ⟨pathAlias, -, read⟩ := Option.bind_eq_some_iff.mp read
    obtain ⟨uuid, -, read⟩ := Option.bind_eq_some_iff.mp read
    obtain ⟨fields, given, read⟩ := Option.bind_eq_some_iff.mp read
    obtain rfl := Option.some.inj read
    intro f listed
    rcases Slot.defaulted_eq_some given with rfl | ⟨list, found⟩
    · cases listed
    · obtain ⟨tree, field⟩ := exists_of_mem_listOf? found f listed
      exact value_of_readField? field
  · cases read

private theorem nodes_of_read? {w : Written} {vocabularies : List VocabularyRecord}
    {given : List GivenNode}
    (read : read? w = some (vocabularies, given)) :
    ∀ g ∈ given, ∃ tree, readNode? tree = some g := by
  rw [read?] at read
  obtain ⟨slots, -, read⟩ := Option.bind_eq_some_iff.mp read
  split at read
  · obtain ⟨listed, -, read⟩ := Option.bind_eq_some_iff.mp read
    obtain ⟨nodes, found, read⟩ := Option.bind_eq_some_iff.mp read
    obtain ⟨rfl, rfl⟩ := Prod.mk.inj (Option.some.inj read)
    intro g among
    rcases Slot.defaulted_eq_some found with rfl | ⟨list, each⟩
    · cases among
    · exact exists_of_mem_listOf? each g among
  · cases read

private theorem documented_of_fieldRecord {title : String} {g : GivenField} {tree : Written}
    (value : tree.value? fieldNesting = some g.value) {f : FieldRecord}
    (made : fieldRecord title g = .ok (some f)) : f.Documented := by
  unfold fieldRecord at made
  split at made
  · cases made
  · next set =>
    split at made
    · cases made
      exact .json g.fieldName value (Bool.eq_false_iff.mpr set)
    · next kind _ =>
      split at made
      · next items read =>
        cases made
        exact .references g.fieldName kind (items?_eq_some read)
      · cases made

private theorem documented_of_nodeRecord {g : GivenNode}
    (values : ∀ f ∈ g.fields, ∃ tree : Written, tree.value? fieldNesting = some f.value)
    {n : NodeRecord} (made : nodeRecord g = .ok n) : n.Documented := by
  obtain ⟨fields, each, same⟩ := Attempt.bind_eq_ok.mp made
  obtain rfl := Except.ok.inj same
  refine ⟨?_, ?_, ?_⟩
  · intro f member
    obtain ⟨made, listed, rfl⟩ := List.mem_filterMap.mp member
    obtain ⟨given, among, field⟩ := Attempt.exists_of_mem_right (Attempt.mapM_eq_ok.mp each) _ listed
    obtain ⟨tree, value⟩ := values given among
    exact documented_of_fieldRecord value field
  · intro empty
    exact of_decide_eq_true (Option.filter_eq_some_iff.mp empty).2 rfl
  · intro empty
    change (g.uuid.filter (· ≠ "")).getD g.title = "" at empty
    cases named : g.uuid.filter (· ≠ "") with
    | none =>
      rw [named] at empty
      exact empty
    | some uuid =>
      rw [named] at empty
      exact absurd empty (of_decide_eq_true (Option.filter_eq_some_iff.mp named).2)

private theorem documented_of_ofWritten {w : Written} {d : Document} (read : ofWritten w = .ok d) :
    ∀ n ∈ d.nodes, n.Documented := by
  unfold ofWritten at read
  split at read
  · cases read
  · next vocabularies given found =>
    obtain ⟨nodes, each, same⟩ := Attempt.bind_eq_ok.mp read
    obtain rfl := Except.ok.inj same
    intro n listed
    obtain ⟨g, among, made⟩ := Attempt.exists_of_mem_right (Attempt.mapM_eq_ok.mp each) n listed
    obtain ⟨tree, node⟩ := nodes_of_read? found g among
    exact documented_of_nodeRecord (fields_of_readNode? node) made

end Document

/-! ## What is read again -/

private theorem Json.Value.sorted_of_ordered {v : Value} (ordered : v.ordered = v) :
    v.sorted = v := by
  cases v with
  | object members =>
    rw [Value.ordered_object] at ordered
    have same := Value.object.inj ordered
    have ascending := Table.ofEntries_ascending (members.map fun m => (m.1, m.2.ordered))
    rw [same] at ascending
    rw [sorted, ascending.ofEntries_eq]
  | _ => rfl

private theorem Document.readText?_of_means {depth : Nat} {s : String} (w : Written)
    (means : w.Means depth (.text s)) : readText? w = some s := by
  rw [means.eq_text]
  rfl

private theorem FieldItem.ordered_toJson (item : FieldItem) :
    item.toJson.ordered = item.toJson.sorted := by
  cases item <;> rfl

private theorem FieldItem.writable (item : FieldItem) (depth : Nat) :
    item.toJson.Writable (depth + 1) := by
  cases item with
  | node uuid => exact Value.writable_text uuid
  | literal text => exact Value.writable_text text
  | tag ref =>
    refine Value.writable_object (by simp) (List.forall_mem_cons.mpr ⟨?_, ?_⟩)
    · exact Value.writable_text _
    · exact List.forall_mem_singleton.mpr (Value.writable_text _)
  | file uri =>
    exact Value.writable_object (by simp) (List.forall_mem_singleton.mpr (Value.writable_text _))

namespace FieldRecord.Documented

variable {f : FieldRecord}

private theorem ordered_value (documented : f.Documented) :
    f.value.toJson.ordered = f.value.given := by
  cases documented with
  | json name read set =>
    have ordered := (Value.writable_of_read read).1
    exact ordered.trans (Value.sorted_of_ordered ordered).symm
  | @references name items kind uniform =>
    change (Value.list (items.map FieldItem.toJson)).ordered = _
    rw [Value.ordered_list, List.map_map]
    exact congrArg Value.list (List.map_congr_left fun item _ => item.ordered_toJson)

private theorem writable_value (documented : f.Documented) :
    f.value.toJson.Writable Document.fieldNesting := by
  have depth : Document.fieldNesting = 120 + 1 + 1 := rfl
  cases documented with
  | json name read set => exact (Value.writable_of_read read).2
  | @references name items kind uniform =>
    exact Value.writable_list (List.forall_mem_map.mpr fun item _ => item.writable 120)

private theorem writable (documented : f.Documented) :
    f.toJson.Writable (Document.fieldNesting + 1) := by
  have value := documented.writable_value
  have name : (Value.text f.fieldName).Writable Document.fieldNesting := Value.writable_text _
  rw [toJson]
  cases f.references with
  | none =>
    exact Value.writable_object (by simp [optionalMember])
      (by simp [optionalMember, value, name])
  | some kind =>
    have tag : (Value.text kind.tag).Writable Document.fieldNesting := Value.writable_text _
    exact Value.writable_object (by simp [optionalMember])
      (by simp [optionalMember, value, name, tag])

private theorem readField?_of_means (documented : f.Documented) {w : Written}
    (means : w.Means (Document.fieldNesting + 1) f.toJson.ordered) :
    Document.readField? w = some f.given := by
  let members := [("field_name", .text f.fieldName), ("value", f.value.toJson)] ++
    optionalMember "references" (f.references.map fun kind => .text kind.tag)
  have distinct : (members.map (·.1)).Nodup := by
    cases kind : f.references <;> simp [members, optionalMember, kind]
  have listed : (Table.get? members "references").map Value.ordered =
      f.references.map fun kind => .text kind.tag := by
    cases kind : f.references <;> simp [members, optionalMember, kind, Table.get?, Value.ordered]
  obtain ⟨slot, record, holds⟩ := Slot.ofRecord?_of_means distinct means
  have readName : (slot "field_name").required Document.readText? = some f.fieldName :=
    Slot.required_of_holds (holds "field_name") Document.readText?_of_means
  have readValue : (slot "value").defaulted .null (Written.value? Document.fieldNesting) =
      some f.value.given :=
    Slot.defaulted_of_holds (holds "value") fun w means =>
      documented.ordered_value ▸ means.value
  have readKind : (slot "references").optional Document.readKind? = some f.references :=
    Slot.optional_of_holds (listed ▸ holds "references") (by rintro (_ | _ | _) <;> rfl)
  rw [Document.readField?, record]
  simp only [List.map_cons, List.map_nil, Option.bind_eq_bind, Option.bind_some, readName,
    readValue, readKind]
  rfl

private theorem fieldRecord_given (documented : f.Documented) (title : String) :
    Document.fieldRecord title f.given = .ok (some f) := by
  cases documented with
  | @json name w v read set =>
    have sorted : v.sorted = v := Value.sorted_of_ordered (Value.writable_of_read read).1
    have value : (FieldRecord.named name (.json v) none).given =
        ⟨(FieldRecord.named name (.json v) none).fieldName, v, none⟩ := by
      rw [given]
      exact congrArg (Document.GivenField.mk _ · none) sorted
    rw [value, Document.fieldRecord]
    simp only [set, named_named, Bool.false_eq_true, if_false]
  | @references name items kind uniform =>
    have all : items.all (·.isOf kind) = true :=
      List.all_eq_true.mpr fun item listed => (uniform item listed).1
    have same : items.map FieldItem.reread = items :=
      (List.map_congr_left fun item listed => (uniform item listed).2).trans (List.map_id _)
    have read : Document.items? kind (FieldValue.references items).given = some items := by
      have sorted := Document.items?_sorted kind items
      rwa [if_pos all, same] at sorted
    have set : Document.isUnset (FieldValue.references items).given = false := rfl
    have value : (FieldRecord.named name (.references items) (some kind)).given =
        ⟨(FieldRecord.named name (.references items) (some kind)).fieldName,
          (FieldValue.references items).given, some kind⟩ := rfl
    rw [value, Document.fieldRecord]
    simp only [set, read, named_named, Bool.false_eq_true, if_false]

end FieldRecord.Documented

namespace NodeRecord.Documented

variable {n : NodeRecord}

private theorem writable (documented : n.Documented) :
    n.toJson.Writable (Document.fieldNesting + 3) := by
  have text : ∀ s, (Value.text s).Writable (Document.fieldNesting + 2) := Value.writable_text
  have fields : (Value.list (n.fields.map FieldRecord.toJson)).Writable
      (Document.fieldNesting + 2) :=
    Value.writable_list (List.forall_mem_map.mpr fun f held => (documented.fields f held).writable)
  rw [toJson]
  cases n.pathAlias with
  | none =>
    exact Value.writable_object (by simp [optionalMember]) (by simp [optionalMember, text, fields])
  | some pathAlias =>
    exact Value.writable_object (by simp [optionalMember]) (by simp [optionalMember, text, fields])

private theorem readNode?_of_means (documented : n.Documented) {w : Written}
    (means : w.Means (Document.fieldNesting + 3) n.toJson.ordered) :
    Document.readNode? w = some n.given := by
  let members := [("title", .text n.title), ("type", .text n.bundle)] ++
    optionalMember "alias" (n.pathAlias.map .text) ++
    [("uuid", .text n.uuid), ("fields", .list (n.fields.map FieldRecord.toJson))]
  have distinct : (members.map (·.1)).Nodup := by
    cases text : n.pathAlias <;> simp [members, optionalMember, text]
  have aliased : (Table.get? members "alias").map Value.ordered =
      n.pathAlias.map fun text => .text text := by
    cases text : n.pathAlias <;> simp [members, optionalMember, text, Table.get?, Value.ordered]
  have identified : (Table.get? members "uuid").map Value.ordered =
      (some n.uuid).map fun text => .text text := by
    cases text : n.pathAlias <;> simp [members, optionalMember, text, Table.get?, Value.ordered]
  have given : (Table.get? members "fields").map Value.ordered =
      some (.list (n.fields.map fun f => f.toJson.ordered)) := by
    cases text : n.pathAlias <;>
      simp [members, optionalMember, text, Table.get?, Value.ordered, orderedItems_eq]
  obtain ⟨slot, record, holds⟩ := Slot.ofRecord?_of_means distinct means
  have readTitle : (slot "title").required Document.readText? = some n.title :=
    Slot.required_of_holds (holds "title") Document.readText?_of_means
  have readBundle : (slot "type").required Document.readText? = some n.bundle :=
    Slot.required_of_holds (holds "type") Document.readText?_of_means
  have readAlias : (slot "alias").optional Document.readText? = some n.pathAlias :=
    Slot.optional_of_holds (aliased ▸ holds "alias") fun _ => rfl
  have readUuid : (slot "uuid").optional Document.readText? = some (some n.uuid) :=
    Slot.optional_of_holds (identified ▸ holds "uuid") fun _ => rfl
  have readFields : (slot "fields").defaulted [] (listOf? Document.readField?) =
      some (n.fields.map FieldRecord.given) :=
    Slot.defaulted_of_holds (given ▸ holds "fields") fun w means =>
      listOf?_of_means means fun f held w field =>
        (documented.fields f held).readField?_of_means field
  rw [Document.readNode?, record]
  simp only [List.map_cons, List.map_nil, Option.bind_eq_bind, Option.bind_some, readTitle,
    readBundle, readAlias, readUuid, readFields]
  rfl

private theorem nodeRecord_given (documented : n.Documented) :
    Document.nodeRecord n.given = .ok n := by
  have fields : (n.fields.map FieldRecord.given).mapM (Document.fieldRecord n.title) =
      .ok (n.fields.map some) := by
    rw [Attempt.mapM_eq_ok, List.forall₂_map_left_iff, List.forall₂_map_right_iff]
    exact List.forall₂_same.mpr fun f held => (documented.fields f held).fieldRecord_given n.title
  have kept : (n.fields.map some).filterMap id = n.fields := by
    rw [List.filterMap_map]
    exact List.filterMap_some
  have aliased := filter_pathAlias documented.aliased
  have identified : ((some n.uuid).filter (· ≠ "")).getD n.title = n.uuid := by
    by_cases empty : n.uuid = ""
    · rw [documented.identified empty, empty]
      rfl
    · rw [Option.filter_some, if_pos (decide_eq_true empty)]
      rfl
  refine Attempt.bind_eq_ok.mpr ⟨_, fields, congrArg Except.ok ?_⟩
  simp only [given, kept, titled, withAlias, withFields, aliased, identified]

end NodeRecord.Documented

/-! ## Documents -/

namespace Document

private theorem writable_nodesToJson {nodes : List NodeRecord}
    (documented : ∀ n ∈ nodes, n.Documented) :
    (nodesToJson nodes).Writable maxNesting := by
  have list : (Value.list (nodes.map NodeRecord.toJson)).Writable (fieldNesting + 4) :=
    Value.writable_list (List.forall_mem_map.mpr fun n listed => (documented n listed).writable)
  exact Value.writable_object (by simp) (List.forall_mem_singleton.mpr list)

private theorem ofWritten_of_means {nodes : List NodeRecord}
    (documented : ∀ n ∈ nodes, n.Documented)
    {w : Written} (means : w.Means maxNesting (nodesToJson nodes).ordered) :
    ofWritten w = .ok ⟨[], nodes⟩ := by
  let members := [("nodes", Value.list (nodes.map NodeRecord.toJson))]
  have listed : (Table.get? members "nodes").map Value.ordered =
      some (.list (nodes.map fun n => n.toJson.ordered)) := by
    simp [members, Table.get?, Value.ordered, orderedItems_eq]
  have distinct : (members.map (·.1)).Nodup := by simp [members]
  obtain ⟨slot, record, holds⟩ := Slot.ofRecord?_of_means distinct means
  have readVocabularies : (slot "vocabularies").defaulted [] (listOf? readVocabulary?) = some [] :=
    Slot.defaulted_of_absent (holds "vocabularies")
  have readNodes : (slot "nodes").defaulted [] (listOf? readNode?) =
      some (nodes.map NodeRecord.given) :=
    Slot.defaulted_of_holds (listed ▸ holds "nodes") fun w means =>
      listOf?_of_means means fun n among w node => (documented n among).readNode?_of_means node
  have read : read? w = some ([], nodes.map NodeRecord.given) := by
    rw [read?, record]
    simp only [List.map_cons, List.map_nil, Option.bind_eq_bind, Option.bind_some,
      readVocabularies, readNodes]
    rfl
  have made : (nodes.map NodeRecord.given).mapM nodeRecord = .ok nodes := by
    rw [Attempt.mapM_eq_ok, List.forall₂_map_left_iff]
    exact List.forall₂_same.mpr fun n among => (documented n among).nodeRecord_given
  rw [ofWritten, read]
  exact Attempt.bind_eq_ok.mpr ⟨_, made, rfl⟩

/-- The nodes of a document, written as a document of their own, are read as the same nodes: as far
as a tree has that value, with no key twice, and so does any text with such a tree. There always is
such a tree, and where no number is in the nodes, every way of printing them is such a text. -/
theorem ofText_nodesToJson {text : List Char} {d : Document} (read : ofText text = .ok d) :
    let again := nodesToJson d.nodes
    (∃ w : Written, w.isPlain = true ∧ w.value? maxNesting = some again.ordered) ∧
      (∀ w : Written, w.isPlain = true → w.value? maxNesting = some again.ordered →
        ofWritten w = .ok ⟨[], d.nodes⟩ ∧
          ∀ other, Written.ofText? other = some w → ofText other = .ok ⟨[], d.nodes⟩) ∧
      (again.isWordy = true → ∀ (layout : Layout) (level : Nat), layout.Blank →
        ofText (again.toTextAt layout level).toList = .ok ⟨[], d.nodes⟩) := by
  intro again
  obtain ⟨_, _, made⟩ := ofText_eq_ok.mp read
  have documented := documented_of_ofWritten made
  obtain ⟨tree, means, own⟩ := writable_nodesToJson documented
  refine ⟨⟨tree, means.plain, means.value⟩, fun w plain value => ?_,
    fun wordy layout level blank => ?_⟩
  · have same := ofWritten_of_means documented ⟨plain, value⟩
    exact ⟨same, fun other found => ofText_eq_ok.mpr ⟨w, found, same⟩⟩
  · have printed := Written.ofText?_toTextAt blank level wordy
    rw [own wordy] at means
    exact ofText_eq_ok.mpr ⟨_, printed, ofWritten_of_means documented means⟩

/-- A document with a node whose alias is empty and whose uuid is missing. One of its fields has a
single reference, one is unset, and one has a value of its own. -/
def looseApple : List Char :=
  ("\x7b\"nodes\":[\x7b\"title\":\"Apple\",\"type\":\"fruit\",\"alias\":\"\",\"fields\":[" ++
    "\x7b\"field_name\":\"kin\",\"value\":\"pear\",\"references\":\"node\"\x7d," ++
    "\x7b\"field_name\":\"color\",\"value\":\x7b\"value\":null\x7d\x7d," ++
    "\x7b\"field_name\":\"taste\",\"value\":\x7b\"sweet\":true,\"note\":\"crisp\"\x7d\x7d" ++
    "]\x7d]\x7d").toList

theorem ofText_nodesToJson_looseApple :
    ∃ d, ofText looseApple = .ok d ∧
      d.nodes.map (fun n => (n.uuid, n.pathAlias, n.fields.map (·.fieldName))) =
        [("Apple", none, ["kin", "taste"])] ∧
      ofText (nodesToJson d.nodes).toText.toList = .ok ⟨[], d.nodes⟩ := by
  have run : ((ofText looseApple).toOption.map fun d =>
      (d.nodes.map (fun n => (n.uuid, n.pathAlias, n.fields.map (·.fieldName))),
        (nodesToJson d.nodes).isWordy)) =
      some ([("Apple", none, ["kin", "taste"])], true) := by
    decide +kernel
  cases read : ofText looseApple with
  | error e =>
    rw [read] at run
    cases run
  | ok d =>
    rw [read] at run
    obtain ⟨nodes, wordy⟩ := Prod.mk.inj (Option.some.inj run)
    obtain ⟨-, -, printed⟩ := ofText_nodesToJson read
    exact ⟨d, rfl, nodes, printed wordy .compact 0 Layout.compact_blank⟩

end Document

end ContentImport
