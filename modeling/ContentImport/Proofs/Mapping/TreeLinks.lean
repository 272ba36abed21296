import ContentImport.Proofs.Import.FieldNames
import ContentImport.Proofs.Mapping.ContentType

/-!
Links in the class tree. A node lists the classes that it is put below or is of, as far as they lie
inside the tree; a class lists the classes put below it and its individuals, wherever it lies. So the
two sides of a link are shown together inside the tree, between entities of one declared kind each.
-/

set_option autoImplicit false
set_option relaxedAutoImplicit false

namespace ContentImport

open ContentImport.Ontology

namespace Graph

private theorem mem_instances_iff (strategy : AccessStrategy) (anchors : Anchors)
    (notices : List String)
    (elements : List Element) (e c : Iri) :
    let g := ofElements strategy anchors notices elements
    e ∈ g.instances c ↔
      c ∈ g.types e ∧ (g.element? e).any (·.hasKind .namedIndividual) = true := by
  intro g
  obtain ⟨other, same⟩ := ofElements_eq_scanned strategy anchors notices elements
  have typed : e ∈ Scan.select elements (fun a => a.types.contains c) ↔ c ∈ g.types e := by
    have described := Scan.mem_element?_iff Element.mem_types_merge elements c e
    simp only [g, same, types, scanned, described, Scan.mem_select_iff, List.contains_iff_mem]
  have listed : e ∈ g.instances c ↔ e ∈ Scan.select elements (fun a => a.types.contains c) ∧
      (g.element? e).any (·.hasKind .namedIndividual) = true := by
    simp only [g, same, scanned, Scan.instances_eq_filter, List.mem_filter]
  rw [listed, typed]

end Graph

def FieldRecord.RefersTo (f : FieldRecord) (other : Iri) : Prop :=
  ∃ items, f.value = .references items ∧ .node other.text ∈ items

private theorem FieldRecord.named_refersTo_iff (name : String) (entities : List Iri)
    (kind : Option ReferenceKind) (other : Iri) :
    (FieldRecord.named name (.references (entities.map fun c => .node c.text)) kind).RefersTo other ↔
      other ∈ entities := by
  constructor
  · rintro ⟨items, refers, listed⟩
    obtain rfl := FieldValue.references.inj refers
    obtain ⟨c, among, same⟩ := List.mem_map.mp listed
    rwa [← Iri.eq_of_text (FieldItem.node.inj same)]
  · exact fun among => ⟨_, rfl, List.mem_map.mpr ⟨other, among, rfl⟩⟩

namespace Mapping.Source

variable (s : Source) (entity : Iri)

def propertyFields : List FieldRecord :=
  (s.graph.fieldProperties.filter fun p => (s.described entity).hasValue p.iri).filterMap fun p =>
    (s.nodeField? entity (s.described entity) p.iri ⟨s.graph.axiomsOf entity⟩).value

/-- A field of a name in the record of an entity refers to another one. -/
def ListsIn (name : String) (other : Iri) : Prop :=
  ∃ n, (s.nodeRecord? entity).value = some n ∧
    ∃ f ∈ n.fields, f.fieldName = name ∧ f.RefersTo other

variable {s entity}

private theorem not_refersTo_body (e : Element) (other : Iri) : ¬ (s.bodyField e).RefersTo other := by
  rintro ⟨items, refers, -⟩
  cases refers

private theorem not_refersTo_tags (kind : Option ReferenceKind) (other : Iri) :
    ¬ (FieldRecord.named "field_tags" (.references (s.tagItems entity)) kind).RefersTo other := by
  rintro ⟨items, refers, listed⟩
  obtain rfl := FieldValue.references.inj refers
  obtain ⟨tag, -, item⟩ := List.mem_filterMap.mp (Distinct.mem_ofList.mp listed)
  obtain ⟨vocabulary, -, same⟩ := Option.map_eq_some_iff.mp item
  cases same

private theorem mem_fields_refersTo_iff (linked : s.options.linksClassTree = true) {n : NodeRecord}
    (record : (s.nodeRecord? entity).value = some n) {other : Iri} {f : FieldRecord}
    (refers : f.RefersTo other) :
    f ∈ n.fields ↔ f = s.parentField entity (s.described entity) ∨
      (s.described entity).hasKind .owlClass = true ∧ f = s.childField entity ∨
      f ∈ s.propertyFields entity := by
  have notBody : f ≠ s.bodyField (s.described entity) := fun same =>
    not_refersTo_body _ other (same ▸ refers)
  have notTags : f ≠ .named "field_tags" (.references (s.tagItems entity)) (some .taxonomyTerm) :=
    fun same => not_refersTo_tags _ other (same ▸ refers)
  have properties : f ∈ s.propertyFields entity ↔ ∃ p ∈ s.graph.fieldProperties,
      (s.described entity).hasValue p.iri = true ∧ (s.nodeField? entity (s.described entity) p.iri
        ⟨s.graph.axiomsOf entity⟩).value = some f := by
    simp only [propertyFields, List.mem_filterMap, List.mem_filter, and_assoc]
  obtain ⟨others, fields, origin⟩ := nodeFields_cases s entity (s.described entity)
  rw [fields_of_nodeRecord? record, fields, List.mem_cons, origin, properties]
  simp only [notBody, linked, notTags, true_and, and_false, false_or, or_assoc]

/-- A class inside the tree: below the node anchor, but not directly. -/
def IsInside (s : Source) (c : Iri) : Prop :=
  s.graph.isBelow c s.anchors.node = true ∧ s.graph.isDirectlyBelow c s.anchors.node = false

private theorem parentField_refersTo_iff (other : Iri) :
    (s.parentField entity (s.described entity)).RefersTo other ↔
      s.IsInside other ∧ other ∈ if (s.described entity).hasKind .owlClass then
        s.graph.directSuperclasses entity else s.graph.types entity := by
  rw [parentField, FieldRecord.named_refersTo_iff, List.mem_filter, and_comm, Bool.and_eq_true,
    Bool.not_eq_true']
  rfl

private theorem childField_refersTo_iff (other : Iri) : (s.childField entity).RefersTo other ↔
    other ∈ s.graph.directSubclasses entity ∨ other ∈ s.graph.instances entity := by
  rw [childField, FieldRecord.named_refersTo_iff, List.mem_append]

/-- A field property gives an entity a field of a name that refers to another one. -/
def PropertyLists (s : Source) (entity : Iri) (name : String) (other : Iri) : Prop :=
  ∃ f ∈ s.propertyFields entity, f.fieldName = name ∧ f.RefersTo other

private theorem listsIn_iff (linked : s.options.linksClassTree = true) {n : NodeRecord}
    (record : (s.nodeRecord? entity).value = some n) (name : String) (other : Iri) :
    s.ListsIn entity name other ↔
      name = "field_parent" ∧ (s.parentField entity (s.described entity)).RefersTo other ∨
      name = "field_child" ∧ (s.described entity).hasKind .owlClass = true ∧
        (s.childField entity).RefersTo other ∨
      s.PropertyLists entity name other := by
  have parent : (s.parentField entity (s.described entity)).fieldName = "field_parent" :=
    FieldRecord.named_fieldName (by decide) _ _
  have child : (s.childField entity).fieldName = "field_child" :=
    FieldRecord.named_fieldName (by decide) _ _
  have members : ∀ f : FieldRecord, f.RefersTo other →
      (f ∈ n.fields ↔ f = s.parentField entity (s.described entity) ∨
        (s.described entity).hasKind .owlClass = true ∧ f = s.childField entity ∨
        f ∈ s.propertyFields entity) :=
    fun f refers => mem_fields_refersTo_iff linked record refers
  constructor
  · rintro ⟨m, found, f, member, rfl, refers⟩
    obtain rfl := Option.some.inj (record.symm.trans found)
    rcases (members f refers).mp member with rfl | ⟨isClass, rfl⟩ | property
    · exact .inl ⟨parent, refers⟩
    · exact .inr (.inl ⟨child, isClass, refers⟩)
    · exact .inr (.inr ⟨f, property, rfl, refers⟩)
  · rintro (⟨rfl, refers⟩ | ⟨rfl, isClass, refers⟩ | ⟨f, property, named, refers⟩)
    · exact ⟨n, record, _, (members _ refers).mpr (.inl rfl), parent, refers⟩
    · exact ⟨n, record, _, (members _ refers).mpr (.inr (.inl ⟨isClass, rfl⟩)), child, refers⟩
    · exact ⟨n, record, f, (members f refers).mpr (.inr (.inr property)), named, refers⟩

private theorem listsIn_parent_iff (linked : s.options.linksClassTree = true) {n : NodeRecord}
    (record : (s.nodeRecord? entity).value = some n) (other : Iri) :
    s.ListsIn entity "field_parent" other ↔
      s.IsInside other ∧
        ((s.described entity).hasKind .owlClass = true ∧
            other ∈ s.graph.directSuperclasses entity ∨
          ¬ (s.described entity).hasKind .owlClass = true ∧ other ∈ s.graph.types entity) ∨
      s.PropertyLists entity "field_parent" other := by
  have differs : ¬ "field_parent" = "field_child" := by decide
  rw [listsIn_iff linked record, parentField_refersTo_iff]
  by_cases isClass : (s.described entity).hasKind .owlClass = true
  · simp only [differs, isClass, if_true, true_and, false_and, not_true_eq_false, or_false,
      false_or]
  · simp only [differs, isClass, if_false, true_and, false_and, not_false_eq_true, false_or,
      Bool.false_eq_true]

private theorem listsIn_child_iff (linked : s.options.linksClassTree = true) {n : NodeRecord}
    (record : (s.nodeRecord? entity).value = some n) (other : Iri) :
    s.ListsIn entity "field_child" other ↔
      (s.described entity).hasKind .owlClass = true ∧
        (other ∈ s.graph.directSubclasses entity ∨ other ∈ s.graph.instances entity) ∨
      s.PropertyLists entity "field_child" other := by
  have differs : ¬ "field_child" = "field_parent" := by decide
  rw [listsIn_iff linked record, childField_refersTo_iff]
  simp only [differs, true_and, false_and, false_or]

private theorem any_hasKind_eq (s : Source) (entity : Iri) (kind : ElementKind) :
    (s.graph.element? entity).any (·.hasKind kind) = (s.described entity).hasKind kind := by
  unfold described
  cases s.graph.element? entity <;> rfl

/-- The two sides of a link in a class tree. An entity lists the classes inside the tree that it is
put below if it is a class, or that it is of if it is none. A class, inside the tree or not, lists
what is put below it and its individuals. Either list may also come from a property that is named
like the field. So below a class inside the tree the two sides agree exactly when a class that is an
individual of it as well is put below it too, and when anything else that is put below it is also of
it, and what is of it is an individual or put below it. -/
theorem tree_links (strategy : AccessStrategy) (anchors : Anchors) (notices : List String)
    (elements : List Element) :
    let s : Source := ⟨.ofElements strategy anchors notices elements, anchors, ⟨true, false⟩⟩
    let isClass := fun c => (s.described c).hasKind .owlClass = true
    let isIndividual := fun c => (s.described c).hasKind .namedIndividual = true
    ∀ p ∈ s.nodeEntities, ∀ e ∈ s.nodeEntities,
      (s.ListsIn e "field_parent" p ↔
        s.IsInside p ∧ (isClass e ∧ p ∈ s.graph.directSuperclasses e ∨
          ¬ isClass e ∧ p ∈ s.graph.types e) ∨ s.PropertyLists e "field_parent" p) ∧
      (s.ListsIn p "field_child" e ↔
        isClass p ∧ (p ∈ s.graph.directSuperclasses e ∨ isIndividual e ∧ p ∈ s.graph.types e) ∨
          s.PropertyLists p "field_child" e) ∧
      (isClass p → s.IsInside p → ¬ s.PropertyLists e "field_parent" p →
        ¬ s.PropertyLists p "field_child" e →
        ((s.ListsIn e "field_parent" p ↔ s.ListsIn p "field_child" e) ↔
          if isClass e then
            isIndividual e → p ∈ s.graph.types e → p ∈ s.graph.directSuperclasses e
          else
            (p ∈ s.graph.directSuperclasses e → p ∈ s.graph.types e) ∧
              (p ∈ s.graph.types e → isIndividual e ∨ p ∈ s.graph.directSuperclasses e))) := by
  intro s isClass isIndividual p upper e lower
  have coherent : s.graph.Coherent := Graph.ofElements_coherent strategy anchors notices elements
  obtain ⟨n, record⟩ := exists_nodeRecord?_of_mem coherent lower
  obtain ⟨m, record'⟩ := exists_nodeRecord?_of_mem coherent upper
  have up := listsIn_parent_iff rfl record p
  have individual : e ∈ s.graph.instances p ↔ isIndividual e ∧ p ∈ s.graph.types e := by
    have kind := any_hasKind_eq s e .namedIndividual
    simp only [isIndividual, ← kind, and_comm]
    exact Graph.mem_instances_iff strategy anchors notices elements e p
  have down := listsIn_child_iff rfl record' e
  rw [coherent.converse, individual] at down
  refine ⟨up, down, fun upperClass inside noParent noChild => ?_⟩
  have upward : s.ListsIn e "field_parent" p ↔ isClass e ∧ p ∈ s.graph.directSuperclasses e ∨
      ¬ isClass e ∧ p ∈ s.graph.types e :=
    up.trans ⟨fun lists => (lists.resolve_right noParent).2, fun lists => .inl ⟨inside, lists⟩⟩
  have downward : s.ListsIn p "field_child" e ↔
      p ∈ s.graph.directSuperclasses e ∨ isIndividual e ∧ p ∈ s.graph.types e :=
    down.trans ⟨fun lists => (lists.resolve_right noChild).2, fun lists => .inl ⟨upperClass, lists⟩⟩
  rw [upward, downward]
  by_cases lowerClass : isClass e
  · rw [if_pos lowerClass]
    simp only [lowerClass, true_and, not_true_eq_false, false_and, or_false, iff_self_or, and_imp]
  · rw [if_neg lowerClass]
    simp only [lowerClass, false_and, not_false_eq_true, true_and, false_or]
    constructor
    · exact fun agree => ⟨fun above => agree.mpr (.inl above),
        fun typed => (agree.mp typed).symm.imp_left And.left⟩
    · rintro ⟨typed, kinds⟩
      refine ⟨fun ofType => (kinds ofType).symm.imp_right (⟨·, ofType⟩), ?_⟩
      exact fun lists => lists.elim typed And.right

end Mapping.Source

namespace TreeSite

def owlClass : Iri := ⟨"http://www.w3.org/2002/07/owl#Class", by decide +kernel⟩

def report : Iri := ⟨"e:Report", by decide +kernel⟩

def bulletin : Iri := ⟨"e:Bulletin", by decide +kernel⟩

def alert : Iri := ⟨"e:Alert", by decide +kernel⟩

def declared (c : Iri) (parents : List Iri) : Element :=
  ⟨some c, [owlClass], parents.map fun parent => ⟨rdfsSubClassOf, .resource parent⟩⟩

open LinkedSite in
/-- Reports among the pages, and bulletins among them that are a content type of their own. -/
def elements : List Element :=
  [declared page [siteAnchors.node], declared report [page],
    declared bulletin [siteAnchors.node, page], declared alert [bulletin],
    ⟨some home, [individual, report], []⟩]

end TreeSite

/-- An ontology with a tree of classes that all become nodes. -/
def treeSite : Mapping.Source where
  graph := Graph.ofElements .inMemory siteAnchors [] TreeSite.elements
  anchors := siteAnchors
  options := ⟨true, false⟩

namespace Mapping.Source

open TreeSite

theorem treeSite_entities :
    treeSite.nodeEntities = [report, bulletin, alert, LinkedSite.home] := by
  simp only [nodeEntities, classEntities, individualEntities, Graph.isInstance, Graph.isBelow,
    Graph.allSubclasses_eq_descendWithin, Graph.allSuperclasses_eq_ascendWithin]
  decide +kernel

theorem treeSite_propertyFields (entity : Iri) : treeSite.propertyFields entity = [] := by
  have none : treeSite.graph.fieldProperties = [] := by decide +kernel
  rw [propertyFields, none]
  rfl

private theorem treeSite_propertyLists (entity : Iri) (name : String) (other : Iri) :
    ¬ treeSite.PropertyLists entity name other := by
  rintro ⟨f, member, -⟩
  rw [treeSite_propertyFields] at member
  cases member

/-- The home page is a report, and the reports list it. -/
theorem tree_links_treeSite :
    treeSite.ListsIn LinkedSite.home "field_parent" report ∧
      treeSite.ListsIn report "field_child" LinkedSite.home := by
  have upper : report ∈ treeSite.nodeEntities := by
    rw [treeSite_entities]
    decide +kernel
  have lower : LinkedSite.home ∈ treeSite.nodeEntities := by
    rw [treeSite_entities]
    decide +kernel
  obtain ⟨-, down, agree⟩ :=
    tree_links .inMemory siteAnchors [] elements report upper LinkedSite.home lower
  have inside : treeSite.IsInside report := by
    simp only [IsInside, Graph.isBelow, Graph.allSuperclasses_eq_ascendWithin]
    decide +kernel
  have listed : treeSite.ListsIn report "field_child" LinkedSite.home :=
    down.mpr (.inl (by decide +kernel))
  refine ⟨?_, listed⟩
  refine ((agree (by decide +kernel) inside (treeSite_propertyLists _ _ _)
    (treeSite_propertyLists _ _ _)).mpr ?_).mpr listed
  decide +kernel

/-- Bulletins list the alerts, which do not list a content type as a parent. -/
theorem tree_links_part_treeSite :
    ¬ ∀ (strategy : AccessStrategy) (anchors : Anchors) (notices : List String)
        (elements : List Element),
      let s : Source := ⟨.ofElements strategy anchors notices elements, anchors, ⟨true, false⟩⟩
      ∀ p ∈ s.nodeEntities, ∀ e ∈ s.nodeEntities,
        (s.ListsIn e "field_parent" p ↔ s.ListsIn p "field_child" e) := by
  intro claimed
  have coherent : treeSite.graph.Coherent :=
    Graph.ofElements_coherent .inMemory siteAnchors [] elements
  have upper : bulletin ∈ treeSite.nodeEntities := by
    rw [treeSite_entities]
    decide +kernel
  have lower : alert ∈ treeSite.nodeEntities := by
    rw [treeSite_entities]
    decide +kernel
  obtain ⟨n, record⟩ := exists_nodeRecord?_of_mem coherent lower
  obtain ⟨m, record'⟩ := exists_nodeRecord?_of_mem coherent upper
  have listed : treeSite.ListsIn bulletin "field_child" alert :=
    (listsIn_child_iff rfl record' alert).mpr (.inl (by decide +kernel))
  have both := claimed .inMemory siteAnchors [] elements bulletin upper alert lower
  rcases (listsIn_parent_iff rfl record bulletin).mp (both.mpr listed) with ⟨⟨-, direct⟩, -⟩ | property
  · exact absurd direct (by decide +kernel)
  · exact treeSite_propertyLists _ _ _ property

end Mapping.Source

end ContentImport
