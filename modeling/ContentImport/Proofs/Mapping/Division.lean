import ContentImport.Proofs.Mapping.DanglingReference

/-!
Descriptions in two parts. What a document says of a resource at one place may stand in two
descriptions that follow each other there. Kinds, types and classes above are listed description by
description, names and values are found of what all descriptions say together; either way the answers
stay the same, in the same order.
-/

set_option autoImplicit false
set_option relaxedAutoImplicit false

namespace ContentImport

open Ontology

namespace Ontology.Element

private theorem linked_of_unnamed {e : Element} (unnamed : e.iri = none) : e.linked = [] := by
  simp only [linked, unnamed]

private theorem addAll_linked {e : Element} {iri : Iri} (named : e.iri = some iri)
    (listed : List Iri) : Distinct.addAll listed e.linked =
      if e.superclasses = [] then listed
      else Distinct.addAll (Distinct.add listed iri) e.superclasses := by
  unfold linked
  rw [named]
  cases e.superclasses with
  | nil => rfl
  | cons c cs => rfl

private theorem addAll_linked_merge {first second : Element} (alike : second.iri = first.iri)
    (listed : List Iri) :
    Distinct.addAll (Distinct.addAll listed first.linked) second.linked =
      Distinct.addAll listed (first.merge second).linked := by
  cases named : first.iri with
  | none =>
    have together : (first.merge second).iri = none := named
    rw [linked_of_unnamed named, linked_of_unnamed (alike.trans named),
      linked_of_unnamed together]
    rfl
  | some iri =>
    have together : (first.merge second).iri = some iri := named
    rw [addAll_linked named, addAll_linked (alike.trans named), addAll_linked together,
      superclasses_merge, Distinct.addAll_addAll]
    by_cases above : first.superclasses = []
    · simp [above, Distinct.addAll_eq_nil_iff]
    · by_cases above' : second.superclasses = []
      · simp [above, above']
      · -- The second description names the resource again, which is listed already.
        have again : iri ∈ Distinct.addAll (Distinct.add listed iri) first.superclasses :=
          Distinct.mem_addAll.mpr (.inl (Distinct.mem_add.mpr (.inr rfl)))
        simp [above, above', Distinct.addAll_eq_nil_iff, Distinct.add_of_mem again]

end Ontology.Element

namespace Graph

section

variable {first second : Element} (alike : second.iri = first.iri)
  (before after : List Element)

private theorem foldl_divided {α β : Type} {step : β → α → β} {first second whole : α}
    (same : ∀ b, step (step b first) second = step b whole) (before after : List α) (b : β) :
    (before ++ first :: second :: after).foldl step b =
      (before ++ whole :: after).foldl step b := by
  simp only [List.foldl_append, List.foldl_cons, same]

namespace Scan

include alike

private theorem select_divided {wanted : Element → Bool}
    (either : wanted (first.merge second) = (wanted first || wanted second)) :
    select (before ++ first :: second :: after) wanted =
      select (before ++ first.merge second :: after) wanted := by
  refine foldl_divided (fun seen => ?_) before after []
  have named : (first.merge second).iri = first.iri := rfl
  simp only [alike, named, either]
  cases first.iri with
  | none => rfl
  | some iri => cases wanted first <;> cases wanted second <;> simp [Distinct.add_add]

private theorem element?_divided (iri : Iri) :
    element? (before ++ first :: second :: after) iri =
      element? (before ++ first.merge second :: after) iri := by
  refine foldl_divided (fun found => ?_) before after none
  have named : (first.merge second).iri = first.iri := rfl
  simp only [alike, named]
  split
  · cases found with
    | none => rfl
    | some earlier => simp [Element.merge_assoc]
  · rfl

private theorem instances_divided (c : Iri) :
    instances (before ++ first :: second :: after) c =
      instances (before ++ first.merge second :: after) c := by
  have typed : (first.merge second).types.contains c =
      (first.types.contains c || second.types.contains c) := by
    rw [Bool.eq_iff_iff]
    simp only [Bool.or_eq_true, List.contains_iff_mem, Element.mem_types_merge]
  rw [instances_eq_filter, instances_eq_filter, select_divided alike before after typed]
  simp only [element?_divided alike]

private theorem fieldProperties_divided (anchors : Anchors) :
    fieldProperties anchors (before ++ first :: second :: after) =
      fieldProperties anchors (before ++ first.merge second :: after) := by
  rw [fieldProperties_eq_flatMap, fieldProperties_eq_flatMap,
    select_divided alike before after (Element.isPartOf_merge first second)]
  simp only [element?_divided alike]

private theorem linked_divided :
    Distinct.ofList ((before ++ first :: second :: after).flatMap Element.linked) =
      Distinct.ofList ((before ++ first.merge second :: after).flatMap Element.linked) := by
  simp only [List.flatMap_append, List.flatMap_cons, Distinct.ofList_append,
    Distinct.addAll_append, Element.addAll_linked_merge alike]

end Scan

section

variable (anchors : Anchors) (notices : List String)

omit alike in
private theorem axioms_divided
    (unannotated : (first.merge second).hasKind .annotatedAxiom = false) :
    (before ++ first :: second :: after).filterMap (AnnotatedAxiom.ofElement? anchors) =
      (before ++ first.merge second :: after).filterMap (AnnotatedAxiom.ofElement? anchors) := by
  have plain : ∀ e : Element, e.hasKind .annotatedAxiom = false →
      AnnotatedAxiom.ofElement? anchors e = none := by
    intro e unannotated
    simp [AnnotatedAxiom.ofElement?, unannotated]
  have parts := unannotated
  rw [Element.hasKind_merge, Bool.or_eq_false_iff] at parts
  simp only [List.filterMap_append, List.filterMap_cons, plain _ unannotated, plain _ parts.1,
    plain _ parts.2]

include alike

private theorem scanned_divided
    (unannotated : (first.merge second).hasKind .annotatedAxiom = false) :
    scanned anchors notices (before ++ first :: second :: after) =
      scanned anchors notices (before ++ first.merge second :: after) := by
  have described : Scan.element? (before ++ first :: second :: after) =
      Scan.element? (before ++ first.merge second :: after) :=
    funext (Scan.element?_divided alike before after)
  have below : ∀ c, Scan.select (before ++ first :: second :: after) (·.superclasses.contains c) =
      Scan.select (before ++ first.merge second :: after) (·.superclasses.contains c) := by
    refine fun c => Scan.select_divided alike before after ?_
    rw [Element.superclasses_merge, Bool.eq_iff_iff]
    simp only [Bool.or_eq_true, List.contains_iff_mem, Distinct.mem_addAll]
  have kinds : ∀ kind, Scan.select (before ++ first :: second :: after) (·.hasKind kind) =
      Scan.select (before ++ first.merge second :: after) (·.hasKind kind) :=
    fun kind => Scan.select_divided alike before after (Element.hasKind_merge first second kind)
  have instances : Scan.instances (before ++ first :: second :: after) =
      Scan.instances (before ++ first.merge second :: after) :=
    funext (Scan.instances_divided alike before after)
  simp only [scanned, described, below, kinds, instances,
    axioms_divided before after anchors unannotated,
    Scan.fieldProperties_divided alike before after anchors,
    Scan.linked_divided alike before after]

private theorem ofElements_divided (strategy : AccessStrategy)
    (unannotated : (first.merge second).hasKind .annotatedAxiom = false) :
    ofElements strategy anchors notices (before ++ first :: second :: after) =
      ofElements strategy anchors notices (before ++ first.merge second :: after) := by
  have passes := scanned_divided alike before after anchors notices unannotated
  cases strategy with
  | streaming => exact passes
  | inMemory => rw [ofElements, ofElements, indexed_eq_scanned, indexed_eq_scanned, passes]

end

end

/-- Dividing a description changes nothing. A description that describes no axiom may be replaced, at
its place in the document, by two of the same resource that together say what it says, wherever it is
divided. Both graphs answer every question alike and are mapped to the same records and messages. -/
theorem answers_divided (strategy : AccessStrategy) (anchors : Anchors) (notices : List String)
    (before after : List Element) (first second whole : Element)
    (alike : second.iri = first.iri) (together : first.merge second = whole)
    (unannotated : whole.hasKind .annotatedAxiom = false) :
    let divided := ofElements strategy anchors notices (before ++ first :: second :: after)
    let undivided := ofElements strategy anchors notices (before ++ whole :: after)
    Agrees divided undivided ∧ ∀ options : Mapping.NodeOptions,
      let fromDivided : Mapping.Source := ⟨divided, anchors, options⟩
      let fromUndivided : Mapping.Source := ⟨undivided, anchors, options⟩
      fromDivided.vocabularyRecords = fromUndivided.vocabularyRecords ∧
        fromDivided.nodeEntities.map fromDivided.nodeRecord? =
          fromUndivided.nodeEntities.map fromUndivided.nodeRecord? ∧
        fromDivided.nodeRecords.value = fromUndivided.nodeRecords.value ∧
        fromDivided.nodeRecords.messages = fromUndivided.nodeRecords.messages := by
  intro divided undivided
  have same : divided = undivided := by
    subst together
    exact ofElements_divided alike before after anchors notices strategy unannotated
  rw [same]
  refine ⟨Agrees.of_strategy undivided undivided.strategy, ?_⟩
  intro options
  exact ⟨rfl, rfl, rfl, rfl⟩

open BrokenLink LinkedSite in
/-- The home page may be declared an individual in one description and a page in the next one. -/
theorem answers_divided_homePage :
    let divided := ofElements .inMemory siteAnchors []
      (before ++ ⟨some home, [individual], [⟨siteAnchors.content, .literal (.plain "Welcome")⟩]⟩ ::
        ⟨some home, [page], [⟨next, .resource news⟩]⟩ :: after)
    divided.instances page = [home, news] ∧
      (⟨divided, siteAnchors, ⟨false, false⟩⟩ : Mapping.Source).nodeRecords.value =
        linkedSite.nodeRecords.value := by
  obtain ⟨agrees, records⟩ := answers_divided .inMemory siteAnchors [] before after
    ⟨some home, [individual], [⟨siteAnchors.content, .literal (.plain "Welcome")⟩]⟩
    ⟨some home, [page], [⟨next, .resource news⟩]⟩ homePage rfl (by decide +kernel)
    (by decide +kernel)
  have listed : (ofElements .inMemory siteAnchors [] (before ++ homePage :: after)).instances page =
      [home, news] := by decide +kernel
  exact ⟨(agrees.instances page).trans listed, (records ⟨false, false⟩).2.2.1⟩

end Graph

end ContentImport
