import ContentImport.Proofs.Import.Dump
import ContentImport.Proofs.Mapping.Messages
import ContentImport.Proofs.Ontology.ValueOrder

/-!
Values of generic entities. A generic entity stands for its value of the property that an axiom
about the reference names. Several axioms may be about one reference; only the first of them by
position is looked at, whether it names a property or not.
-/

set_option autoImplicit false
set_option relaxedAutoImplicit false

namespace ContentImport

open ContentImport.Ontology

namespace Ontology.AxiomIndex

/-- The axioms about a statement, by position. -/
def about (index : AxiomIndex) (property : Iri) (target : Term) : List AnnotatedAxiom :=
  AnnotatedAxiom.inOrder
    (index.axioms.filter fun a => a.property = property && a.target.sameValue target)

private theorem withTarget?_eq (index : AxiomIndex) (property : Iri) (target : Term) :
    index.withTarget? property target = (index.about property target).head? := by
  have sorted : index.about property target =
      (index.forProperty property).filter (·.target.sameValue target) := by
    unfold about forProperty
    rw [AnnotatedAxiom.filter_inOrder, List.filter_filter]
    simp only [Bool.and_comm]
  rw [sorted, List.head?_filter, withTarget?]

private theorem head?_bind_field {axioms : List AnnotatedAxiom}
    (covered : (∀ a ∈ axioms.head?, a.field = none) → ∀ a ∈ axioms, a.field = none) :
    axioms.head?.bind (·.field) = axioms.findSome? (·.field) := by
  -- The first of some axioms names the property that is named first among them, unless it names
  -- none and another one does.
  cases axioms with
  | nil => rfl
  | cons a rest =>
    rw [List.head?_cons, Option.bind_some, List.findSome?_cons]
    cases named : a.field with
    | some field => rfl
    | none =>
      have plain := covered (by simpa using named)
      refine (List.findSome?_eq_none_iff.mpr fun b member => ?_).symm
      exact plain b (List.mem_cons_of_mem a member)

end Ontology.AxiomIndex

namespace Mapping

private theorem unnamedValueMessage_ne_missingValueMessage (entity property target : Iri)
    (other : Iri) (field : String) :
    Source.unnamedValueMessage entity property target ≠ Source.missingValueMessage other field := by
  intro same
  unfold Source.unnamedValueMessage Source.missingValueMessage at same
  have texts := congrArg String.toList same
  rw [String.toList_append (t := "')"), String.toList_append (t := "'.")] at texts
  have lengths : "')".toList.length = "'.".toList.length := by decide
  have ends : "')".toList = "'.".toList := List.append_inj_right' texts lengths
  exact absurd ends (by decide)

namespace Source

variable {s : Source} {target : Iri}

/-- A resource that is neither a node nor a file nor a tag, but an entity of some class. -/
structure IsGeneric (s : Source) (target : Iri) : Prop where
  notNode : s.graph.descendsFrom target s.anchors.node = false
  notFile : s.graph.descendsFrom target s.anchors.file = false
  notTag : s.tagItem? target = none
  entity : s.graph.isInstance target s.anchors.entity = true

/-- What a generic entity comes to when its value is read through a property: that value, or a
message that there is none. -/
def readThrough (s : Source) (target : Iri) (field : String) :
    Noted (Option (FieldItem × Option ReferenceKind)) :=
  match (s.graph.element? target).bind (·.valueOfField? field) with
  | some value => ⟨some (.literal (stripTypeSuffix value.lexical), none), []⟩
  | none => ⟨none, [missingValueMessage target field]⟩

private theorem unnamed_not_mem_readThrough (entity property : Iri) (field : String) :
    unnamedValueMessage entity property target ∉ (s.readThrough target field).messages := by
  unfold readThrough
  split
  · simp
  · simpa using unnamedValueMessage_ne_missingValueMessage entity property target target field

private theorem IsGeneric.targetItem?_eq (generic : s.IsGeneric target) (entity property : Iri)
    (index : AxiomIndex) :
    s.targetItem? entity property target index =
      match (index.about property (.resource target)).head?.bind (·.field) with
      | some field => s.readThrough target field
      | none => ⟨none, [unnamedValueMessage entity property target]⟩ := by
  unfold targetItem? entityValue? readThrough
  rw [generic.notNode, generic.notFile, generic.notTag, generic.entity, index.withTarget?_eq]
  simp only [Bool.false_eq_true, if_false, if_true]
  split
  · next unnamed => rw [unnamed]; rfl
  · next field named =>
    rw [named]
    split
    · next missing => simp only [missing]; rfl
    · next value read => simp only [read]; rfl

/-- A generic entity is read through the property that the first axiom about the reference names,
and said to be referred to without one when that axiom names none. Axioms behind it do not count, so
the first property that any of them names is used exactly when the first axiom names one or none of
them does. -/
theorem targetItem?_read_by_first_axiom (generic : s.IsGeneric target) (entity property : Iri) :
    let index : AxiomIndex := ⟨s.graph.axiomsOf entity⟩
    let axioms := index.about property (.resource target)
    let mapped := s.targetItem? entity property target index
    let unnamed := unnamedValueMessage entity property target
    (∀ a ∈ axioms.head?, ∀ field, a.field = some field → mapped = s.readThrough target field) ∧
      (unnamed ∈ mapped.messages ↔ ∀ a ∈ axioms.head?, a.field = none) ∧
      (((∀ field, axioms.findSome? (·.field) = some field → mapped = s.readThrough target field) ∧
          (unnamed ∈ mapped.messages ↔ ∀ a ∈ axioms, a.field = none)) ↔
        ((∀ a ∈ axioms.head?, a.field = none) → ∀ a ∈ axioms, a.field = none)) := by
  intro index axioms mapped unnamed
  have read : mapped = match axioms.head?.bind (·.field) with
      | some field => s.readThrough target field
      | none => ⟨none, [unnamed]⟩ := generic.targetItem?_eq entity property index
  have said : unnamed ∈ mapped.messages ↔ ∀ a ∈ axioms.head?, a.field = none := by
    refine Iff.trans ?_ Option.bind_eq_none_iff
    rw [read]
    cases first : axioms.head?.bind (·.field) with
    | none => simp
    | some field =>
      exact iff_of_false (unnamed_not_mem_readThrough entity property field) (by simp)
  refine ⟨?_, said, ?_⟩
  · intro a first field named
    rw [read, Option.mem_def.mp first, Option.bind_some, named]
  · rw [said]
    constructor
    · exact fun claimed => claimed.2.mp
    · intro covered
      refine ⟨?_, covered, ?_⟩
      · intro field claimed
        rw [read, AxiomIndex.head?_bind_field covered, claimed]
      · intro plain a first
        exact plain a (List.mem_of_head? first)

end Source

end Mapping

namespace BylinedSite

def person : Iri := ⟨"e:Person", by decide +kernel⟩

def author : Iri := ⟨"e:author", by decide +kernel⟩

def alice : Iri := ⟨"e:alice", by decide +kernel⟩

def name : Iri := ⟨"e:name", by decide +kernel⟩

def annotated : Iri := ⟨"http://www.w3.org/2002/07/owl#Axiom", by decide +kernel⟩

/-- An annotation of the statement who the author of the page is. -/
def about (note : Iri) (value : String) : Element :=
  ⟨none, [annotated],
    [⟨owlAnnotatedSource, .resource LinkedSite.home⟩, ⟨owlAnnotatedProperty, .resource author⟩,
      ⟨owlAnnotatedTarget, .resource alice⟩, ⟨note, .literal (.plain value)⟩]⟩

open LinkedSite in
/-- A page and its author. One axiom gives the author a position, another one names the property
that the author is read through. -/
def elements : List Element :=
  [⟨some page, [], [⟨rdfsSubClassOf, .resource siteAnchors.node⟩]⟩,
    ⟨some person, [], [⟨rdfsSubClassOf, .resource siteAnchors.entity⟩]⟩,
    ⟨some home, [individual, page], [⟨author, .resource alice⟩]⟩,
    ⟨some alice, [individual, person], [⟨name, .literal (.plain "Alice Smith")⟩]⟩,
    about siteAnchors.refNum "1", about siteAnchors.annotationField "e:name"]

end BylinedSite

def bylinedSite : Mapping.Source where
  graph := Graph.ofElements .inMemory siteAnchors [] BylinedSite.elements
  anchors := siteAnchors
  options := ⟨false, false⟩

private theorem bylinedSite_generic : bylinedSite.IsGeneric BylinedSite.alice := by
  constructor <;>
  · simp only [Mapping.Source.tagItem?, Mapping.Source.vocabularyForTag?, Graph.descendsFrom,
      Graph.isInstance, Graph.isBelow, Graph.allSuperclasses_eq_ascendWithin]
    decide +kernel

/-- The author has a value of the property that is named, and is said to be referred to without
one. -/
theorem Mapping.Source.targetItem?_read_by_first_axiom_bylinedSite :
    let index : AxiomIndex := ⟨bylinedSite.graph.axiomsOf LinkedSite.home⟩
    let mapped :=
      bylinedSite.targetItem? LinkedSite.home BylinedSite.author BylinedSite.alice index
    (index.about BylinedSite.author (.resource BylinedSite.alice)).findSome? (·.field) =
        some "e:name" ∧
      (bylinedSite.readThrough BylinedSite.alice "e:name").value =
        some (.literal "Alice Smith", none) ∧
      unnamedValueMessage LinkedSite.home BylinedSite.author BylinedSite.alice ∈
        mapped.messages := by
  intro index mapped
  have axioms : index.about BylinedSite.author (.resource BylinedSite.alice) =
      [⟨LinkedSite.home, BylinedSite.author, .resource BylinedSite.alice, some 1, none⟩,
        ⟨LinkedSite.home, BylinedSite.author, .resource BylinedSite.alice, none,
          some "e:name"⟩] := by
    unfold AxiomIndex.about AnnotatedAxiom.inOrder
    rw [List.mergeSort_of_pairwise (by decide +kernel)]
    decide +kernel
  obtain ⟨-, said, -⟩ := Mapping.Source.targetItem?_read_by_first_axiom bylinedSite_generic
    LinkedSite.home BylinedSite.author
  refine ⟨by rw [axioms]; rfl, by decide +kernel, said.mpr ?_⟩
  rw [axioms]
  rintro a ⟨⟩
  rfl

end ContentImport
