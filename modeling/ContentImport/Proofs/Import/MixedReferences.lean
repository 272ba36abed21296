import ContentImport.Proofs.Import.Dump
import ContentImport.Proofs.Import.StoredFields

/-!
Fields of mixed references. All references of a field are written in the way of its kind: either
with the node or once every entity is created. Of references that need the one and others that need
the other, some are lost or stay unresolved.
-/

set_option autoImplicit false
set_option relaxedAutoImplicit false

namespace ContentImport

open ContentImport.Ontology
open ContentImport.Store

namespace FieldItem

/-- What a reference is written as: in a field that waits, the number of an entity in the store at
the end; in any other, what is written with the node. -/
inductive WrittenAs (atEnd : Store) : Bool → FieldItem → Json.Value → Prop
  | resolved {item : FieldItem} (waits : item.waits = true) :
      WrittenAs atEnd true item (.ofOption .nat (atEnd.resolveTarget? item))
  | file (uri : String) (id : EntityId) :
      WrittenAs atEnd false (.file uri) (.object [("uri", .text uri), ("target_id", .nat id)])
  | value (text : String) : WrittenAs atEnd false (.literal text) (.text text)
  /-- Nothing is looked up for a file or a value. -/
  | lost {item : FieldItem} (waits : item.waits = false) : WrittenAs atEnd true item .null
  /-- Nodes and tags are left as they are named. -/
  | unresolved {item : FieldItem} (waits : item.waits = true) :
      WrittenAs atEnd false item item.toJson

private theorem writtenAs_resolveTarget? (atEnd : Store) (item : FieldItem) :
    WrittenAs atEnd true item (.ofOption .nat (atEnd.resolveTarget? item)) := by
  cases item with
  | node uuid => exact .resolved rfl
  | tag ref => exact .resolved rfl
  | file uri => exact .lost rfl
  | literal text => exact .lost rfl

private theorem writtenAs_itemValues (atNode atEnd : Store) (items : List FieldItem) :
    List.Forall₂ (WrittenAs atEnd false) items (atNode.itemValues items).1 := by
  induction items generalizing atNode with
  | nil => exact .nil
  | cons item items ih =>
    cases item with
    | node uuid => exact .cons (.unresolved rfl) (ih _)
    | tag ref => exact .cons (.unresolved rfl) (ih _)
    | file uri => exact .cons (.file uri _) (ih _)
    | literal text => exact .cons (.value text) (ih _)

end FieldItem

namespace FieldRecord

variable {f : FieldRecord} {items : List FieldItem}

private theorem deferredTargets?_eq (value : f.value = .references items) :
    f.deferredTargets? = if f.references.any ReferenceKind.isDeferred then some items else none := by
  rw [deferredTargets?, value]
  cases f.references <;> rfl

private theorem finalValue?_references (value : f.value = .references items)
    (atNode atEnd : Store) :
    ∃ values, f.finalValue? atNode atEnd = some (.list values) ∧
      List.Forall₂ (FieldItem.WrittenAs atEnd (f.references.any ReferenceKind.isDeferred))
        items values := by
  have targets := deferredTargets?_eq value
  cases waits : f.references.any ReferenceKind.isDeferred with
  | true =>
    rw [waits, if_pos rfl] at targets
    refine ⟨items.map fun item => .ofOption .nat (atEnd.resolveTarget? item), ?_, ?_⟩
    · rw [finalValue?, targets]
      simp only [referenceValue, List.map_map]
      rfl
    · rw [List.forall₂_map_right_iff, List.forall₂_same]
      exact fun item _ => item.writtenAs_resolveTarget? atEnd
  | false =>
    rw [waits, if_neg Bool.false_ne_true] at targets
    refine ⟨(atNode.itemValues items).1, ?_, FieldItem.writtenAs_itemValues atNode atEnd items⟩
    rw [finalValue?, targets]
    simp only [fieldValue?, targets, value]
    rfl

end FieldRecord

namespace Mapping.Source

variable {s : Source} {entity property : Iri} {e : Element} {axioms : AxiomIndex}

/-- The kind of a reference field is that of its last reference that has one. All references are of
it exactly when they are of one kind among themselves. They are written as the kind of the field
says, so some are lost or stay unresolved exactly when some of them wait and others do not. -/
theorem field_written_by_last_kind {f : FieldRecord} {items : List FieldItem}
    (field : (s.nodeField? entity e property axioms).value = some f)
    (value : f.value = .references items) :
    f.references = (items.filterMap FieldItem.kind?).getLast? ∧
      ((∀ item ∈ items, item.kind? = f.references) ↔
        ∀ a ∈ items, ∀ b ∈ items, a.kind? = b.kind?) ∧
      (∀ atNode atEnd, ∃ values, f.finalValue? atNode atEnd = some (.list values) ∧
        List.Forall₂ (FieldItem.WrittenAs atEnd (f.references.any ReferenceKind.isDeferred))
          items values) ∧
      ((∀ item ∈ items, item.waits = f.references.any ReferenceKind.isDeferred) ↔
        ∀ a ∈ items, ∀ b ∈ items, a.waits = b.waits) := by
  have last : f.references = (items.filterMap FieldItem.kind?).getLast? := by
    rcases nodeField?_cases field with ⟨texts, rfl⟩ | ⟨others, -, -, rfl⟩
    · cases value
    · obtain rfl := FieldValue.references.inj value
      rfl
  exact ⟨last, FieldItem.forall_kind_iff last id, f.finalValue?_references value,
    FieldItem.forall_kind_iff last (·.any ReferenceKind.isDeferred)⟩

end Mapping.Source

namespace MixedSite

def shows : Iri := ⟨"e:shows", by decide +kernel⟩

def logo : Iri := ⟨"e:logo", by decide +kernel⟩

open LinkedSite in
/-- A page that shows another page and a file. -/
def home : Element :=
  ⟨some LinkedSite.home, [individual, page],
    [⟨shows, .resource news⟩, ⟨shows, .resource logo⟩]⟩

open LinkedSite in
def elements : List Element :=
  [⟨some page, [], [⟨rdfsSubClassOf, .resource siteAnchors.node⟩]⟩, home,
    ⟨some news, [individual, page], []⟩,
    ⟨some logo, [individual, siteAnchors.file],
      [⟨siteAnchors.uri, .literal (.plain "logo.png")⟩]⟩]

end MixedSite

def mixedSite : Mapping.Source where
  graph := Graph.ofElements .inMemory siteAnchors [] MixedSite.elements
  anchors := siteAnchors
  options := ⟨false, false⟩

private theorem mixedSite_targets :
    (mixedSite.targetItem? LinkedSite.home MixedSite.shows LinkedSite.news ⟨[]⟩).value =
        some (.node "e:news", some .node) ∧
      (mixedSite.targetItem? LinkedSite.home MixedSite.shows MixedSite.logo ⟨[]⟩).value =
        some (.file "logo.png", some .file) := by
  simp only [Mapping.Source.targetItem?, Mapping.Source.fileUri?, Mapping.Source.filePath,
    Graph.descendsFrom, Graph.isInstance, Graph.isBelow, Graph.allSuperclasses_eq_ascendWithin]
  decide +kernel

theorem Mapping.Source.field_written_by_last_kind_mixedSite :
    ∃ f, (mixedSite.nodeField? LinkedSite.home MixedSite.home MixedSite.shows ⟨[]⟩).value = some f ∧
      f.value = .references [.node "e:news", .file "logo.png"] ∧ f.references = some .file ∧
      ∀ atNode atEnd, ∃ rest, f.finalValue? atNode atEnd = some (.list (.text "e:news" :: rest)) := by
  obtain ⟨page, picture⟩ := mixedSite_targets
  have field : (mixedSite.nodeField? LinkedSite.home MixedSite.home MixedSite.shows ⟨[]⟩).value =
      some (.named "shows" (.references [.node "e:news", .file "logo.png"]) (some .file)) := by
    have targets : Mapping.Source.targetsOf ⟨[]⟩ MixedSite.shows
        (MixedSite.home.values MixedSite.shows) = [LinkedSite.news, MixedSite.logo] := by
      decide +kernel
    have literals : (MixedSite.home.values MixedSite.shows).filter (·.literal?.isSome) = [] := by
      decide +kernel
    rw [(Mapping.Source.nodeField?_eq mixedSite LinkedSite.home ⟨[]⟩ literals).1, targets]
    simp only [List.filterMap_cons, List.filterMap_nil, page, picture]
    rfl
  obtain ⟨-, -, written, -⟩ := Mapping.Source.field_written_by_last_kind field rfl
  refine ⟨_, field, rfl, rfl, fun atNode atEnd => ?_⟩
  obtain ⟨values, final, each⟩ := written atNode atEnd
  obtain ⟨first, rest, unresolved, -, rfl⟩ := List.forall₂_cons_left_iff.mp each
  have named : FieldItem.WrittenAs atEnd false (.node "e:news") first := unresolved
  cases named
  exact ⟨rest, final⟩

end ContentImport
