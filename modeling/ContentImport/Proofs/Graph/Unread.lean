import ContentImport.Mapping.Fields
import ContentImport.Proofs.Hierarchy.Subclass
import Mathlib.Data.List.Forall2
import Mathlib.Data.Option.Basic

/-!
Properties that are not read by name. The hierarchy, the axioms and the fixed parts of a record are
found from a few properties. So two ontologies whose elements say the same besides the values of
another property give the same answers, up to these values.
-/

set_option autoImplicit false
set_option relaxedAutoImplicit false

namespace ContentImport

namespace Ontology

/-- The properties that are read by name. -/
def namedProperties (anchors : Anchors) : List Iri :=
  [rdfType, rdfsSubClassOf, rdfsSubPropertyOf, rdfsLabel, owlAnnotatedSource, owlAnnotatedProperty,
    owlAnnotatedTarget, anchors.title, anchors.pathAlias, anchors.content, anchors.summary,
    anchors.refNum, anchors.uri, anchors.annotationField]

namespace Element

theorem values_push (e : Element) (p q : Iri) (object : Term) :
    (e.push p object).values q = e.values q ++ if p = q then [object] else [] := by
  simp only [values, push, List.filter_append, List.map_append]
  by_cases same : p = q <;> simp [same]

/-- Descriptions of one resource that say the same besides the values of a property. -/
structure SameBesides (p : Iri) (e other : Element) : Prop where
  iri : other.iri = e.iri
  declared : other.declared = e.declared
  values : ∀ q, q ≠ p → other.values q = e.values q

namespace SameBesides

variable {p : Iri} {e other : Element}

theorem refl (p : Iri) (e : Element) : SameBesides p e e :=
  ⟨rfl, rfl, fun _ _ => rfl⟩

theorem push (p : Iri) (e : Element) (object : Term) : SameBesides p e (e.push p object) := by
  refine ⟨rfl, rfl, fun q differs => ?_⟩
  rw [values_push, if_neg (Ne.symm differs), List.append_nil]

private theorem merge {later later' : Element} (same : SameBesides p e other)
    (same' : SameBesides p later later') : SameBesides p (e.merge later) (other.merge later') := by
  refine ⟨same.iri, ?_, fun q differs => ?_⟩
  · simp only [Element.merge, same.declared, same'.declared]
  · rw [values_merge, values_merge, same.values q differs, same'.values q differs]

variable {anchors : Anchors} (same : SameBesides p e other) (unread : p ∉ namedProperties anchors)

include same unread

private theorem values_named {q : Iri} (named : q ∈ namedProperties anchors) :
    other.values q = e.values q :=
  same.values q (ne_of_mem_of_not_mem named unread)

theorem hasKind (kind : ElementKind) : other.hasKind kind = e.hasKind kind := by
  rw [Element.hasKind, Element.hasKind, same.declared,
    same.values_named unread (by simp [namedProperties])]

private theorem types : other.types = e.types := by
  rw [Element.types, Element.types, resources, resources, same.declared,
    same.values_named unread (by simp [namedProperties])]

private theorem superclasses : other.superclasses = e.superclasses := by
  rw [Element.superclasses, Element.superclasses, resources, resources,
    same.values_named unread (by simp [namedProperties])]

private theorem linked : other.linked = e.linked := by
  rw [Element.linked, Element.linked, same.iri, same.superclasses unread]

private theorem label? : other.label? = e.label? := by
  rw [Element.label?, Element.label?, firstLiteral?, firstLiteral?,
    same.values_named unread (by simp [namedProperties])]

private theorem isPartOf : FieldProperty.isPartOf other = FieldProperty.isPartOf e := by
  simp only [FieldProperty.isPartOf, hasValue, same.hasKind unread,
    same.values_named unread (q := rdfsSubPropertyOf) (by simp [namedProperties])]

private theorem fieldProperty (category : FieldCategory) :
    FieldProperty.ofElement? anchors category other =
      FieldProperty.ofElement? anchors category e := by
  rw [FieldProperty.ofElement?, FieldProperty.ofElement?, resources, resources, same.iri,
    same.hasKind unread, same.values_named unread (by simp [namedProperties])]

private theorem annotatedAxiom :
    AnnotatedAxiom.ofElement? anchors other = AnnotatedAxiom.ofElement? anchors e := by
  have source := same.values_named unread (q := owlAnnotatedSource) (by simp [namedProperties])
  have property := same.values_named unread (q := owlAnnotatedProperty) (by simp [namedProperties])
  have target := same.values_named unread (q := owlAnnotatedTarget) (by simp [namedProperties])
  have position := same.values_named unread (q := anchors.refNum) (by simp [namedProperties])
  have field := same.values_named unread (q := anchors.annotationField) (by simp [namedProperties])
  simp only [AnnotatedAxiom.ofElement?, firstLiteral?, same.hasKind unread, source, property,
    target, position, field]

theorem firstText? {q : Iri} (named : q ∈ namedProperties anchors) :
    Mapping.firstText? other q = Mapping.firstText? e q := by
  rw [Mapping.firstText?, Mapping.firstText?, same.values_named unread named]

end SameBesides

theorem eq_of_rel {β : Type} {p : Iri} {f : Option Element → β}
    (alike : ∀ e other, SameBesides p e other → f (some other) = f (some e))
    {found found' : Option Element} (described : Option.Rel (SameBesides p) found found') :
    f found' = f found := by
  cases described with
  | none => rfl
  | some pair => exact alike _ _ pair

end Element

end Ontology

open Ontology

namespace Graph

/-! ## Lists of elements -/

namespace Scan

variable {p : Iri} {elements others : List Element}
  (same : List.Forall₂ (Element.SameBesides p) elements others)

include same

private theorem map_eq {β : Type} {f : Element → β}
    (alike : ∀ e other, Element.SameBesides p e other → f other = f e) :
    others.map f = elements.map f := by
  induction same with
  | nil => rfl
  | cons pair _ ih => rw [List.map_cons, List.map_cons, alike _ _ pair, ih]

private theorem select_eq {wanted : Element → Bool}
    (alike : ∀ e other, Element.SameBesides p e other → wanted other = wanted e) :
    select others wanted = select elements wanted := by
  refine (List.rel_foldl (P := Eq) (R := Element.SameBesides p) ?_ rfl same).symm
  rintro seen _ rfl e other pair
  simp only [pair.iri, alike e other pair]

private theorem element?_rel (iri : Iri) :
    Option.Rel (Element.SameBesides p) (element? elements iri) (element? others iri) := by
  refine List.rel_foldl (P := Option.Rel (Element.SameBesides p))
    (R := Element.SameBesides p) ?_ .none same
  intro found found' before e other pair
  simp only [pair.iri]
  split
  · cases before with
    | none => exact .some pair
    | some earlier => exact .some (earlier.merge pair)
  · exact before

section

variable {anchors : Anchors} (unread : p ∉ namedProperties anchors)

include unread

private theorem instances_eq (c : Iri) : instances others c = instances elements c := by
  have candidates : select others (fun e => e.types.contains c) =
      select elements fun e => e.types.contains c :=
    select_eq same fun _ _ pair => by rw [pair.types unread]
  rw [instances_eq_filter, instances_eq_filter, candidates]
  refine List.filter_congr fun iri _ => ?_
  refine Element.eq_of_rel (f := fun found => found.any _) ?_ (element?_rel same iri)
  exact fun _ _ pair => pair.hasKind unread _

private theorem fieldProperties_eq :
    fieldProperties anchors others = fieldProperties anchors elements := by
  have candidates : select others FieldProperty.isPartOf =
      select elements FieldProperty.isPartOf :=
    select_eq same fun _ _ pair => pair.isPartOf unread
  rw [fieldProperties_eq_flatMap, fieldProperties_eq_flatMap, candidates]
  refine congrArg (FieldCategory.all.flatMap ·) (funext fun category => ?_)
  refine List.filterMap_congr fun iri _ => ?_
  refine Element.eq_of_rel (f := fun found => found.bind _) ?_ (element?_rel same iri)
  exact fun _ _ pair => pair.fieldProperty unread category

private theorem axioms_eq : others.filterMap (AnnotatedAxiom.ofElement? anchors) =
    elements.filterMap (AnnotatedAxiom.ofElement? anchors) := by
  have found := map_eq same fun _ _ pair => pair.annotatedAxiom unread
  have picked := congrArg (List.filterMap id) found
  rwa [List.filterMap_map, List.filterMap_map] at picked

private theorem linked_eq : others.flatMap Element.linked = elements.flatMap Element.linked := by
  rw [List.flatMap, List.flatMap, map_eq same fun _ _ pair => pair.linked unread]

end

end Scan

/-- Graphs that give the same answers besides the values of a property. -/
structure SameBesides (p : Iri) (g other : Graph) : Prop where
  element? : ∀ iri, Option.Rel (Element.SameBesides p) (g.element? iri) (other.element? iri)
  directSubclasses : other.directSubclasses = g.directSubclasses
  instances : other.instances = g.instances
  axiomsOf : other.axiomsOf = g.axiomsOf
  fieldProperties : other.fieldProperties = g.fieldProperties
  linked : other.linked = g.linked

theorem sameBesides_ofElements {p : Iri} {anchors : Anchors}
    (unread : p ∉ namedProperties anchors) (strategy : AccessStrategy) (notices : List String)
    {elements others : List Element}
    (same : List.Forall₂ (Element.SameBesides p) elements others) :
    SameBesides p (ofElements strategy anchors notices elements)
      (ofElements strategy anchors notices others) := by
  obtain ⟨_, found⟩ := ofElements_eq_scanned strategy anchors notices elements
  obtain ⟨_, found'⟩ := ofElements_eq_scanned strategy anchors notices others
  rw [found, found']
  exact
    { element? := Scan.element?_rel same
      directSubclasses := funext fun c => Scan.select_eq same fun _ _ pair => by
        rw [pair.superclasses unread]
      instances := funext (Scan.instances_eq same unread)
      axiomsOf := funext fun source => congrArg _ (Scan.axioms_eq same unread)
      fieldProperties := Scan.fieldProperties_eq same unread
      linked := congrArg Distinct.ofList (Scan.linked_eq same unread) }

/-! ## Answers that are found from elements -/

namespace SameBesides

variable {p : Iri} {anchors : Anchors} {g other : Graph} (same : g.SameBesides p other)

theorem allSubclasses (same : g.SameBesides p other) : other.allSubclasses = g.allSubclasses := by
  funext c
  rw [Graph.allSubclasses, Graph.allSubclasses, same.directSubclasses, same.linked]

variable (unread : p ∉ namedProperties anchors)

include same unread

theorem directSuperclasses : other.directSuperclasses = g.directSuperclasses :=
  funext fun iri => Element.eq_of_rel (f := fun found => (found.map Element.superclasses).getD [])
    (fun _ _ pair => pair.superclasses unread) (same.element? iri)

theorem types : other.types = g.types :=
  funext fun iri => Element.eq_of_rel (f := fun found => (found.map Element.types).getD [])
    (fun _ _ pair => pair.types unread) (same.element? iri)

theorem displayName : other.displayName = g.displayName :=
  funext fun iri => Element.eq_of_rel
    (f := fun found => (found.bind Element.label?).getD iri.localName)
    (fun _ _ pair => congrArg (Option.getD · _) (pair.label? unread)) (same.element? iri)

theorem allSuperclasses : other.allSuperclasses = g.allSuperclasses := by
  funext c
  rw [Graph.allSuperclasses, Graph.allSuperclasses, same.directSuperclasses unread, same.linked]

theorem isBelow : other.isBelow = g.isBelow := by
  funext c target
  rw [Graph.isBelow, Graph.isBelow, same.allSuperclasses unread]

theorem isDirectlyBelow : other.isDirectlyBelow = g.isDirectlyBelow := by
  funext c target
  rw [Graph.isDirectlyBelow, Graph.isDirectlyBelow, same.directSuperclasses unread]

theorem isInstance : other.isInstance = g.isInstance := by
  funext individual c
  rw [Graph.isInstance, Graph.isInstance, same.types unread, same.isBelow unread]

theorem descendsFrom : other.descendsFrom = g.descendsFrom := by
  funext entity root
  rw [Graph.descendsFrom, Graph.descendsFrom, same.isInstance unread, same.isBelow unread]

end SameBesides

end Graph

end ContentImport
