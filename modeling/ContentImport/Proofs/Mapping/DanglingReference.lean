import ContentImport.Proofs.Mapping.ReferenceKinds
import ContentImport.Proofs.Mapping.Unread
import ContentImport.Proofs.Ontology.ValueOrder
import ContentImport.Proofs.Import.FieldNames

/-!
References to nothing. A resource that no element describes leads to nothing, so it becomes no item
of a field wherever it stands among the values of a property. An entity that refers to it has the
same record as without it, and one message more at most.
-/

set_option autoImplicit false
set_option relaxedAutoImplicit false

namespace ContentImport

open ContentImport.Ontology
open Relation

/-! ## One message more -/

private theorem flatMap_filter {α β : Type} {keep : α → Bool} {f : α → List β}
    (nothing : ∀ x, keep x = false → f x = []) (xs : List α) :
    (xs.filter keep).flatMap f = xs.flatMap f := by
  induction xs with
  | nil => rfl
  | cons x xs ih =>
    cases kept : keep x with
    | true => rw [List.filter_cons_of_pos kept, List.flatMap_cons, List.flatMap_cons, ih]
    | false =>
      rw [List.filter_cons_of_neg (by simp [kept]), List.flatMap_cons, nothing x kept,
        List.nil_append, ih]

private theorem filterMap_filter_ne {α β : Type} [DecidableEq α] {f : α → Option β} {x : α}
    (nothing : f x = none) (xs : List α) : (xs.filter (· ≠ x)).filterMap f = xs.filterMap f := by
  rw [List.filterMap_filter]
  refine List.filterMap_congr fun y _ => ?_
  by_cases same : y = x <;> simp [same, nothing]

/-- Besides one message, the same messages are raised in the same order, and none is lost. -/
structure RaisedBesides (m : String) (former messages : List String) : Prop where
  others : messages.filter (· ≠ m) = former.filter (· ≠ m)
  kept : ∀ x ∈ former, x ∈ messages

namespace RaisedBesides

variable {m : String} {former messages : List String}

private theorem refl (m : String) (messages : List String) : RaisedBesides m messages messages :=
  ⟨rfl, fun _ => id⟩

private theorem append {former' messages' : List String} (first : RaisedBesides m former messages)
    (second : RaisedBesides m former' messages') :
    RaisedBesides m (former ++ former') (messages ++ messages') := by
  refine ⟨?_, fun x raised => ?_⟩
  · rw [List.filter_append, List.filter_append, first.others, second.others]
  · exact List.mem_append.mpr ((List.mem_append.mp raised).imp (first.kept x) (second.kept x))

private theorem flatMap {α : Type} {f g : α → List String} {xs : List α}
    (each : ∀ x ∈ xs, RaisedBesides m (f x) (g x)) :
    RaisedBesides m (xs.flatMap f) (xs.flatMap g) := by
  induction xs with
  | nil => exact refl m []
  | cons x xs ih =>
    obtain ⟨here, later⟩ := List.forall_mem_cons.mp each
    exact here.append (ih later)

private theorem of_filter_eq {α : Type} [DecidableEq α] {said : α → List String} {x : α}
    {xs ys : List α}
    (same : ys.filter (· ≠ x) = xs.filter (· ≠ x)) (kept : ∀ y ∈ xs, y ∈ ys)
    (noted : said x = [m]) : RaisedBesides m (xs.flatMap said) (ys.flatMap said) := by
  refine ⟨?_, fun message raised => ?_⟩
  · have silent : ∀ y, decide (y ≠ x) = false → (said y).filter (· ≠ m) = [] := by
      intro y here
      obtain rfl : y = x := by simpa using here
      simp [noted]
    rw [List.filter_flatMap, List.filter_flatMap, ← flatMap_filter silent, same,
      flatMap_filter silent]
  · obtain ⟨y, listed, raised⟩ := List.mem_flatMap.mp raised
    exact List.mem_flatMap.mpr ⟨y, kept y listed, raised⟩

private theorem warnAll (raised : RaisedBesides m former messages) (log : Warnings) :
    RaisedBesides m (log.warnAll former).messages (log.warnAll messages).messages := by
  refine ⟨?_, fun x held => ?_⟩
  · rw [Warnings.messages_warnAll, Warnings.messages_warnAll, Distinct.filter_addAll,
      Distinct.filter_addAll, raised.others]
  · exact Warnings.mem_warnAll.mpr ((Warnings.mem_warnAll.mp held).imp_right (raised.kept x))

end RaisedBesides

/-! ## Values of one resource more -/

private theorem Ontology.AxiomIndex.filter_orderValues (index : AxiomIndex) (property : Iri)
    (x : Term)
    (values : List Term) :
    (index.orderValues property values).filter (!·.sameValue x) =
      index.orderValues property (values.filter (!·.sameValue x)) :=
  ((takes_arrange (index.forProperty property) values).filter_eq x).symm

namespace Mapping.Source

private theorem mem_targetsOf {axioms : AxiomIndex} {property target : Iri} {values : List Term} :
    target ∈ targetsOf axioms property values ↔ .resource target ∈ values := by
  have perm : (axioms.orderValues property values).Perm values :=
    (AxiomIndex.takes_arrange _ values).perm
  rw [targetsOf, List.mem_filterMap]
  constructor
  · rintro ⟨value, listed, resource⟩
    cases value with
    | literal _ => cases resource
    | resource iri =>
      obtain rfl := Option.some.inj resource
      exact perm.mem_iff.mp listed
  · exact fun listed => ⟨.resource target, perm.mem_iff.mpr listed, rfl⟩

private theorem filter_targetsOf (axioms : AxiomIndex) (property r : Iri)
    (before after : List Term) :
    (targetsOf axioms property (before ++ .resource r :: after)).filter (· ≠ r) =
      (targetsOf axioms property (before ++ after)).filter (· ≠ r) := by
  have targets : ∀ values : List Term, (values.filterMap Term.resource?).filter (· ≠ r) =
      (values.filter (!·.sameValue (.resource r))).filterMap Term.resource? := by
    intro values
    rw [List.filter_filterMap, List.filterMap_filter]
    refine List.filterMap_congr fun value _ => ?_
    cases value with
    | literal _ => rfl
    | resource iri =>
      by_cases same : iri = r
      · simp [Term.resource?, Term.sameValue, same]
      · simp [Term.resource?, Term.sameValue, same]
  have dropped : (before ++ .resource r :: after).filter (!·.sameValue (.resource r)) =
      (before ++ after).filter (!·.sameValue (.resource r)) := by
    simp [Term.sameValue]
  rw [targetsOf, targetsOf, targets, targets, AxiomIndex.filter_orderValues,
    AxiomIndex.filter_orderValues, dropped]

variable {s : Source} {entity property r : Iri} {axioms : AxiomIndex} {e other : Element}

private theorem nodeField?_of_values_eq (values : other.values property = e.values property) :
    s.nodeField? entity other property axioms = s.nodeField? entity e property axioms := by
  simp only [nodeField?, values]

private theorem nodeField?_of_values_nil (nothing : e.values property = []) :
    s.nodeField? entity e property axioms = pure none := by
  have ordered : axioms.orderValues property [] = [] :=
    List.perm_nil.mp (AxiomIndex.takes_arrange _ []).perm
  simp [nodeField?, nothing, ordered]

private theorem nodeField?_unmapped {m : String} {before after : List Term}
    (unmapped : (s.targetItem? entity property r axioms).value = none)
    (noted : (s.targetItem? entity property r axioms).messages = [m])
    (values : e.values property = before ++ after)
    (values' : other.values property = before ++ .resource r :: after) :
    (s.nodeField? entity other property axioms).value =
        (s.nodeField? entity e property axioms).value ∧
      RaisedBesides m (s.nodeField? entity e property axioms).messages
        (s.nodeField? entity other property axioms).messages := by
  have literals : (other.values property).filter (·.literal?.isSome) =
      (e.values property).filter (·.literal?.isSome) := by
    rw [values, values', List.filter_append, List.filter_append]
    rfl
  have targets : (targetsOf axioms property (other.values property)).filter (· ≠ r) =
      (targetsOf axioms property (e.values property)).filter (· ≠ r) := by
    rw [values, values', filter_targetsOf]
  by_cases plain : (e.values property).filter (·.literal?.isSome) = []
  · obtain ⟨value, messages⟩ := nodeField?_eq s entity axioms plain
    obtain ⟨value', messages'⟩ := nodeField?_eq s entity axioms (literals.trans plain)
    have items := filterMap_filter_ne
      (f := fun target => (s.targetItem? entity property target axioms).value) unmapped
    constructor
    · rw [value, value', ← items, targets, items]
    · rw [messages, messages']
      refine .of_filter_eq targets (fun target listed => ?_) noted
      rw [mem_targetsOf, values, List.mem_append] at listed
      rw [mem_targetsOf, values', List.mem_append]
      exact listed.imp_right (List.mem_cons_of_mem _)
  · have filled : (!((e.values property).filter (·.literal?.isSome)).isEmpty) = true := by
      simpa [List.isEmpty_iff] using plain
    have same : s.nodeField? entity other property axioms =
        s.nodeField? entity e property axioms := by
      simp only [nodeField?, literals, filled, if_true]
    rw [same]
    exact ⟨rfl, .refl m _⟩

/-! ## Records -/

private theorem targetItem?_of_element?_eq_none (coherent : s.graph.Coherent)
    (nothing : s.graph.element? r = none) :
    s.targetItem? entity property r axioms =
      ⟨none, [nonexistentMessage entity property r]⟩ := by
  have stays : ∀ c, ¬ s.graph.LeadsUp r c := by
    intro c leads
    obtain ⟨d, above, -⟩ := TransGen.head'_iff.mp leads
    rw [Graph.directSuperclasses, nothing] at above
    cases above
  have outside : ∀ c, s.graph.isBelow r c = false := fun c => by
    rw [← Bool.not_eq_true, coherent.isBelow_iff]
    exact fun below => stays c below.2
  have untyped : ∀ c, s.graph.isInstance r c = false := fun c => by
    rw [Graph.isInstance, Graph.types, nothing]
    rfl
  have untagged : s.tagItem? r = none := by
    have nowhere : s.vocabularyForTag? r = none := by
      refine List.find?_eq_none.mpr fun vocabulary _ => ?_
      rw [decide_eq_true_iff, coherent.mem_allSubclasses_iff]
      exact fun below => stays vocabulary below.2
    rw [tagItem?, nowhere, Option.map_none]
  simp only [targetItem?, Graph.descendsFrom, outside, untyped, untagged, Bool.or_self,
    Bool.false_eq_true, if_false]
  rfl

private theorem descendsFrom_node (coherent : s.graph.Coherent) (other : entity ≠ s.anchors.node)
    (typed : (s.bundleOf? entity).isSome = true) :
    s.graph.descendsFrom entity s.anchors.node = true := by
  rw [bundleOf?, Option.isSome_map, List.find?_isSome] at typed
  obtain ⟨c, below, descends⟩ := typed
  have up : s.graph.LeadsUp c s.anchors.node := .single ((coherent.converse _ _).mp below)
  rw [Graph.descendsFrom, Bool.or_eq_true] at descends ⊢
  rcases descends with isInstance | lower
  · obtain ⟨type, typed, related⟩ := coherent.isInstance_iff.mp isInstance
    refine .inl (coherent.isInstance_iff.mpr ⟨type, typed, .inr ?_⟩)
    exact related.elim (fun same => same ▸ up) (·.trans up)
  · exact .inr (coherent.isBelow_iff.mpr
      ⟨Ne.symm other, (coherent.isBelow_iff.mp lower).2.trans up⟩)

private theorem nodeFields_eq (s : Source) (entity : Iri) (e : Element) :
    let field := fun p : FieldProperty => s.nodeField? entity e p.iri ⟨s.graph.axiomsOf entity⟩
    (s.nodeFields entity e).value =
        s.bodyField e :: (s.treeFields entity e ++ s.tagFields entity ++
          s.graph.fieldProperties.filterMap (field · |>.value)) ∧
      (s.nodeFields entity e).messages =
        s.graph.fieldProperties.flatMap (field · |>.messages) := by
  intro field
  have nothing : ∀ p : FieldProperty, e.hasValue p.iri = false → field p = pure none := by
    intro p none
    refine nodeField?_of_values_nil ?_
    simpa [Element.hasValue] using none
  constructor
  · rw [value_nodeFields, List.filterMap_filter]
    refine congrArg (List.cons _) (congrArg (_ ++ ·) (List.filterMap_congr fun p _ => ?_))
    cases has : e.hasValue p.iri with
    | true => rfl
    | false => exact (congrArg Noted.value (nothing p has)).symm
  · rw [messages_nodeFields]
    exact flatMap_filter (fun p none => congrArg Noted.messages (nothing p none)) _

section

variable {p : Iri} {g : Graph} (same : s.graph.SameBesides p g)
  (unread : p ∉ namedProperties s.anchors) {m : String}

include same unread

private theorem nodeFields_withGraph (pair : e.SameBesides p other)
    (each : ∀ q,
      let field := s.nodeField? entity e q ⟨s.graph.axiomsOf entity⟩
      let field' := (s.withGraph g).nodeField? entity other q ⟨s.graph.axiomsOf entity⟩
      field'.value = field.value ∧ RaisedBesides m field.messages field'.messages) :
    ((s.withGraph g).nodeFields entity other).value = (s.nodeFields entity e).value ∧
      RaisedBesides m (s.nodeFields entity e).messages
        ((s.withGraph g).nodeFields entity other).messages := by
  obtain ⟨fields, said⟩ := nodeFields_eq s entity e
  obtain ⟨fields', said'⟩ := nodeFields_eq (s.withGraph g) entity other
  rw [fields, fields', said, said']
  simp only [withGraph_graph, same.axiomsOf, same.fieldProperties, bodyField_withGraph unread pair,
    treeFields_withGraph same unread pair, tagFields_withGraph same unread]
  constructor
  · exact congrArg _ (congrArg _ (List.filterMap_congr fun q _ => (each q.iri).1))
  · exact .flatMap fun q _ => (each q.iri).2

omit unread in
private theorem described_withGraph (entity : Iri) :
    (s.described entity).SameBesides p ((s.withGraph g).described entity) := by
  have found := same.element? entity
  simp only [described, withGraph_graph]
  generalize s.graph.element? entity = e, g.element? entity = e' at found ⊢
  cases found with
  | none => exact .refl p _
  | some pair => exact pair

private theorem nodeRecord?_withGraph
    (each : (s.bundleOf? entity).isSome = true → ∀ q,
      let field := s.nodeField? entity (s.described entity) q ⟨s.graph.axiomsOf entity⟩
      let field' := (s.withGraph g).nodeField? entity ((s.withGraph g).described entity) q
        ⟨s.graph.axiomsOf entity⟩
      field'.value = field.value ∧ RaisedBesides m field.messages field'.messages) :
    ((s.withGraph g).nodeRecord? entity).value = (s.nodeRecord? entity).value ∧
      RaisedBesides m (s.nodeRecord? entity).messages
        ((s.withGraph g).nodeRecord? entity).messages := by
  have pair := described_withGraph same entity
  have bundle := bundleOf?_withGraph same unread entity
  cases typed : s.bundleOf? entity with
  | none =>
    rw [nodeRecord?_of_none typed, nodeRecord?_of_none (bundle.trans typed)]
    exact ⟨rfl, .refl m _⟩
  | some name =>
    obtain ⟨fields, said⟩ := nodeFields_withGraph same unread pair (each (by rw [typed]; rfl))
    have title := pair.firstText? unread (q := s.anchors.title) (by simp [namedProperties])
    have pathAlias := pair.firstText? unread (q := s.anchors.pathAlias) (by simp [namedProperties])
    have record : (s.withGraph g).recordOf entity name = s.recordOf entity name := by
      rw [recordOf, recordOf, fields, withGraph_anchors, title, pathAlias]
    rw [nodeRecord?_of_bundle typed, nodeRecord?_of_bundle (bundle.trans typed)]
    exact ⟨congrArg some record, said⟩

end

private theorem nodeField?_withGraph {g : Graph}
    (items : ∀ target, (s.withGraph g).targetItem? entity property target axioms =
      s.targetItem? entity property target axioms) :
    (s.withGraph g).nodeField? entity e property axioms =
      s.nodeField? entity e property axioms := by
  simp only [nodeField?, items]

end Mapping.Source

/-! ## One statement more -/

namespace Graph

private theorem element?_ofElements (strategy : AccessStrategy) (anchors : Anchors)
    (notices : List String)
    (elements : List Element) :
    (ofElements strategy anchors notices elements).element? = Scan.element? elements := by
  obtain ⟨other, same⟩ := ofElements_eq_scanned strategy anchors notices elements
  rw [same]
  rfl

namespace Scan

variable {elements before after : List Element} {d : Element} {iri : Iri}

private theorem element?_eq_none (nowhere : ∀ e ∈ elements, e.iri ≠ some iri) :
    element? elements iri = none := by
  induction elements using List.reverseRecOn with
  | nil => rfl
  | append_singleton elements e ih =>
    obtain ⟨earlier, last⟩ := List.forall_mem_append.mp nowhere
    rw [element?_concat, if_neg (last e List.mem_cons_self), ih earlier]

private theorem element?_push (p : Iri) (object : Term) (elsewhere : d.iri ≠ some iri) :
    element? (before ++ d.push p object :: after) iri = element? (before ++ d :: after) iri := by
  have unnamed : (d.push p object).iri ≠ some iri := elsewhere
  simp only [element?, List.foldl_append, List.foldl_cons, if_neg elsewhere, if_neg unnamed]

private theorem values_element? (elements : List Element) (iri q : Iri) :
    ((element? elements iri).getD (.empty (some iri))).values q =
      (elements.filter (·.iri = some iri)).flatMap (·.values q) := by
  have stated : ((element? elements iri).getD (.empty (some iri))).statements =
      (elements.filter (·.iri = some iri)).flatMap Element.statements := by
    rw [← statements_element?]
    cases element? elements iri <;> rfl
  rw [Element.values, stated, List.filter_flatMap, List.map_flatMap]
  rfl

private theorem values_element?_push (before after : List Element) (p : Iri) (object : Term)
    (named : d.iri = some iri) :
    ∃ first last,
      ((element? (before ++ d :: after) iri).getD (.empty (some iri))).values p = first ++ last ∧
      ((element? (before ++ d.push p object :: after) iri).getD (.empty (some iri))).values p =
        first ++ object :: last := by
  have named' : (d.push p object).iri = some iri := named
  refine ⟨(before.filter (·.iri = some iri)).flatMap (·.values p) ++ d.values p,
    (after.filter (·.iri = some iri)).flatMap (·.values p), ?_, ?_⟩
  · rw [values_element?, List.filter_append, List.filter_cons, if_pos (decide_eq_true named),
      List.flatMap_append, List.flatMap_cons, List.append_assoc]
  · rw [values_element?, List.filter_append, List.filter_cons, if_pos (decide_eq_true named'),
      List.flatMap_append, List.flatMap_cons, Element.values_push, if_pos rfl]
    simp only [List.append_assoc, List.cons_append, List.nil_append]

end Scan

end Graph

namespace Mapping.Source

/-- A reference to nothing degrades nothing else. Whatever a description states besides, a further
statement of a property that is not read by name, with a resource that no element describes, leaves
the record of the entity as it is, and adds to the messages at most that the resource does not
exist. The anchor of nodes itself is left out: as a target, it may be a generic entity, whose
statements are looked up. -/
theorem nodeRecord?_dangling (strategy : AccessStrategy) (anchors : Anchors) (notices : List String)
    (options : NodeOptions) (before after : List Element) (d : Element) (entity p r : Iri)
    (named : d.iri = some entity) (other : entity ≠ anchors.node)
    (unread : p ∉ namedProperties anchors)
    (nowhere : ∀ e ∈ before ++ d :: after, e.iri ≠ some r) :
    let elements := before ++ d :: after
    let elements' := before ++ d.push p (.resource r) :: after
    let s : Source := ⟨.ofElements strategy anchors notices elements, anchors, options⟩
    let s' : Source := ⟨.ofElements strategy anchors notices elements', anchors, options⟩
    (s'.nodeRecord? entity).value = (s.nodeRecord? entity).value ∧
      ∀ log : Warnings, RaisedBesides (nonexistentMessage entity p r)
        (log.warnAll (s.nodeRecord? entity).messages).messages
        (log.warnAll (s'.nodeRecord? entity).messages).messages := by
  intro elements elements' s s'
  have coherent : s.graph.Coherent := Graph.ofElements_coherent strategy anchors notices elements
  have pairs : List.Forall₂ (Element.SameBesides p) elements elements' := by
    refine List.rel_append (List.forall₂_same.mpr fun e _ => .refl p e) (.cons (.push p d _) ?_)
    exact List.forall₂_same.mpr fun e _ => .refl p e
  have same : s.graph.SameBesides p s'.graph :=
    Graph.sameBesides_ofElements unread strategy notices pairs
  have described : s.graph.element? = Graph.Scan.element? elements :=
    Graph.element?_ofElements strategy anchors notices elements
  have described' : s'.graph.element? = Graph.Scan.element? elements' :=
    Graph.element?_ofElements strategy anchors notices elements'
  have record : (s'.nodeRecord? entity).value = (s.nodeRecord? entity).value ∧
      RaisedBesides (nonexistentMessage entity p r) (s.nodeRecord? entity).messages
        (s'.nodeRecord? entity).messages := by
    refine nodeRecord?_withGraph same unread fun typed q => ?_
    -- The entity itself becomes a node wherever it is a target, so what it states is not looked up.
    have items : ∀ target, s'.targetItem? entity q target ⟨s.graph.axiomsOf entity⟩ =
        s.targetItem? entity q target ⟨s.graph.axiomsOf entity⟩ := by
      refine fun target => targetItem?_withGraph same unread _ _ _ _ fun outside => ?_
      have differs : d.iri ≠ some target := by
        intro about
        obtain rfl := Option.some.inj (named.symm.trans about)
        rw [descendsFrom_node coherent other typed] at outside
        cases outside
      rw [described, described']
      exact Graph.Scan.element?_push p _ differs
    intro field field'
    have fields : field' = s.nodeField? entity (s'.described entity) q ⟨s.graph.axiomsOf entity⟩ :=
      nodeField?_withGraph items
    rw [fields]
    by_cases here : q = p
    · subst here
      obtain ⟨first, last, values, values'⟩ :=
        Graph.Scan.values_element?_push before after q (.resource r) named
      rw [← described] at values
      rw [← described'] at values'
      have nothing : s.graph.element? r = none := by
        rw [described]
        exact Graph.Scan.element?_eq_none nowhere
      have unmapped : s.targetItem? entity q r ⟨s.graph.axiomsOf entity⟩ =
          ⟨none, [nonexistentMessage entity q r]⟩ :=
        targetItem?_of_element?_eq_none coherent nothing
      exact nodeField?_unmapped (by rw [unmapped]) (by rw [unmapped]) values values'
    · have pair : (s.described entity).SameBesides p (s'.described entity) :=
        described_withGraph same entity
      rw [nodeField?_of_values_eq (pair.values q here)]
      exact ⟨rfl, .refl _ _⟩
  exact ⟨record.1, record.2.warnAll⟩

end Mapping.Source

namespace BrokenLink

def gone : Iri := ⟨"e:gone", by decide +kernel⟩

open LinkedSite

def homePage : Element :=
  ⟨some home, [individual, page],
    [⟨siteAnchors.content, .literal (.plain "Welcome")⟩, ⟨next, .resource news⟩]⟩

def before : List Element :=
  [⟨some page, [], [⟨rdfsSubClassOf, .resource siteAnchors.node⟩]⟩,
    ⟨some next, [objectProperty], [⟨rdfsSubPropertyOf, .resource siteAnchors.objectField⟩]⟩]

def after : List Element :=
  [⟨some news, [individual, page], []⟩]

end BrokenLink

open BrokenLink in
/-- The ontology of two linked pages, with a link from one of them to a page that is gone. -/
def brokenLink : Mapping.Source where
  graph := Graph.ofElements .inMemory siteAnchors []
    (before ++ homePage.push LinkedSite.next (.resource gone) :: after)
  anchors := siteAnchors
  options := ⟨false, false⟩

namespace Mapping.Source

open BrokenLink LinkedSite

private theorem brokenLink_messages : (brokenLink.nodeRecord? home).messages =
    ["Nonexistent entity 'gone' referenced by 'home' and property 'e:next'"] := by
  simp only [Mapping.Source.nodeRecord?, Mapping.Source.bundleOf?, Mapping.Source.nodeFields,
    Mapping.Source.nodeField?, Mapping.Source.targetItem?, Mapping.Source.parentField,
    Mapping.Source.fileUri?, Mapping.Source.filePath, tagItem?, vocabularyForTag?,
    Graph.descendsFrom, Graph.isInstance, Graph.isBelow, Graph.allSuperclasses_eq_ascendWithin,
    Graph.allSubclasses_eq_descendWithin]
  decide +kernel

/-- The home page is the same with the link, which is the one thing that is said of it. -/
theorem nodeRecord?_dangling_brokenLink :
    (brokenLink.nodeRecord? home).value = (linkedSite.nodeRecord? home).value ∧
      RaisedBesides (nonexistentMessage home next gone)
        (Warnings.empty.warnAll (linkedSite.nodeRecord? home).messages).messages
        ["Nonexistent entity 'gone' referenced by 'home' and property 'e:next'"] := by
  obtain ⟨record, raised⟩ := nodeRecord?_dangling .inMemory siteAnchors [] ⟨false, false⟩ before
    after homePage home next gone rfl (by decide +kernel) (by decide +kernel) (by decide +kernel)
  refine ⟨record, ?_⟩
  have once := raised .empty
  change RaisedBesides _ _
    (Warnings.empty.warnAll (brokenLink.nodeRecord? home).messages).messages at once
  rw [brokenLink_messages] at once
  exact once

end Mapping.Source

end ContentImport
