import ContentImport.Graph.Opening
import ContentImport.Mapping.Nodes
import Mathlib.Data.List.Basic
import Mathlib.Data.List.Induction

/-!
The two access strategies agree. An index that is built element by element holds, at every prefix of
the document, the list that a pass over that prefix selects; so a document that is read gives the
same answers from indexes and by passes, and the same records and messages.
-/

set_option autoImplicit false
set_option relaxedAutoImplicit false

namespace ContentImport.Graph

open ContentImport.Ontology

/-- Two graphs that answer every question about an ontology alike. -/
structure Agrees (held streamed : Graph) : Prop where
  element? : ∀ iri, held.element? iri = streamed.element? iri
  directSubclasses : ∀ c, held.directSubclasses c = streamed.directSubclasses c
  directSuperclasses : ∀ c, held.directSuperclasses c = streamed.directSuperclasses c
  ofKind : ∀ kind, held.ofKind kind = streamed.ofKind kind
  instances : ∀ c, held.instances c = streamed.instances c
  types : ∀ iri, held.types iri = streamed.types iri
  displayName : ∀ iri, held.displayName iri = streamed.displayName iri
  axiomsOf : ∀ source, held.axiomsOf source = streamed.axiomsOf source
  fieldProperties : held.fieldProperties = streamed.fieldProperties
  linked : held.linked = streamed.linked
  notices : held.notices = streamed.notices

namespace Scan

theorem select_concat (elements : List Element) (e : Element) (wanted : Element → Bool) :
    select (elements ++ [e]) wanted =
      match e.iri with
      | some iri => if wanted e then Distinct.add (select elements wanted) iri
          else select elements wanted
      | none => select elements wanted := by
  cases named : e.iri with
  | none => simp [select, named]
  | some iri => simp [select, named]

theorem element?_concat (elements : List Element) (e : Element) (iri : Iri) :
    element? (elements ++ [e]) iri =
      if e.iri = some iri then some (((element? elements iri).map (·.merge e)).getD e)
      else element? elements iri := by
  simp only [element?, List.foldl_append, List.foldl_cons, List.foldl_nil]

private theorem get?_merged (elements : List Element) (wanted : List Iri) (iri : Iri) :
    Table.get? (merged elements wanted) iri =
      if iri ∈ wanted then element? elements iri else none := by
  induction elements using List.reverseRecOn with
  | nil => simp [merged, element?]
  | append_singleton elements e ih =>
    rw [element?_concat]
    simp only [merged, List.foldl_append, List.foldl_cons, List.foldl_nil] at ih ⊢
    cases named : e.iri with
    | none => simpa [named] using ih
    | some other =>
      by_cases chosen : other ∈ wanted
      · simp only [if_pos chosen, Table.get?_alter]
        by_cases same : other = iri
        · subst same
          simp [chosen, ih]
        · simpa [same] using ih
      · have unchosen : other = iri → iri ∉ wanted := fun same held => chosen (same ▸ held)
        by_cases same : other = iri
        · simp [chosen, ih, unchosen same]
        · simpa [chosen, same] using ih

theorem instances_eq_filter (elements : List Element) (c : Iri) :
    instances elements c = (select elements fun e => e.types.contains c).filter fun iri =>
      (element? elements iri).any (·.hasKind .namedIndividual) := by
  refine List.filter_congr fun iri candidate => ?_
  rw [get?_merged, if_pos candidate]

theorem fieldProperties_eq_flatMap (anchors : Anchors) (elements : List Element) :
    fieldProperties anchors elements = FieldCategory.all.flatMap fun category =>
      (select elements FieldProperty.isPartOf).filterMap fun iri =>
        (element? elements iri).bind (FieldProperty.ofElement? anchors category) := by
  refine congrArg (FieldCategory.all.flatMap ·) (funext fun category => ?_)
  refine List.filterMap_congr fun iri candidate => ?_
  rw [get?_merged, if_pos candidate]

end Scan

namespace Index

private theorem ofElements_concat (anchors : Anchors) (elements : List Element) (e : Element) :
    ofElements anchors (elements ++ [e]) = insert anchors (ofElements anchors elements) e := by
  simp only [ofElements, List.foldl_append, List.foldl_cons, List.foldl_nil]

private theorem listed_listUnder (t : Table Iri (List Iri)) (keys : List Iri) (iri key : Iri) :
    listed (listUnder t keys iri) key =
      if key ∈ keys then Distinct.add (listed t key) iri else listed t key := by
  induction keys generalizing t with
  | nil => simp [listUnder]
  | cons k keys ih =>
    have rest := ih (Table.alter t k fun found => Distinct.add (found.getD []) iri)
    simp only [listUnder, List.foldl_cons] at rest ⊢
    rw [rest]
    have here : listed (Table.alter t k fun found => Distinct.add (found.getD []) iri) key =
        if k = key then Distinct.add (listed t key) iri else listed t key := by
      simp only [listed, Table.get?_alter]
      by_cases same : k = key
      · subst same
        simp
      · simp [same]
    rw [here]
    by_cases same : k = key
    · subst same
      simp [Distinct.add_add]
    · simp [same, Ne.symm same]

private theorem insertAxiom_eq (anchors : Anchors) (index : Index) (e : Element) :
    insertAxiom anchors index e =
      { index with axiomsBySource := (insertAxiom anchors index e).axiomsBySource } := by
  unfold insertAxiom
  split <;> rfl

section
variable (anchors : Anchors) (elements : List Element)

private theorem get?_merged (iri : Iri) :
    Table.get? (ofElements anchors elements).merged iri = Scan.element? elements iri := by
  induction elements using List.reverseRecOn with
  | nil => rfl
  | append_singleton elements e ih =>
    rw [ofElements_concat, Scan.element?_concat, insert, insertAxiom_eq]
    cases named : e.iri with
    | none => simpa [named] using ih
    | some other =>
      simp only [insertNamed, Table.get?_alter, ih, Option.some.injEq]
      by_cases same : other = iri
      · subst same
        simp only [if_true, ih]
      · simp only [if_neg same]

private theorem list_eq_select (list : Index → List Iri) (wanted : Element → Bool)
    (begins : list empty = [])
    (unnamed : ∀ index e, list (insertAxiom anchors index e) = list index)
    (grows : ∀ index iri e, list (insertNamed index iri e) =
      if wanted e then Distinct.add (list index) iri else list index) :
    list (ofElements anchors elements) = Scan.select elements wanted := by
  induction elements using List.reverseRecOn with
  | nil => exact begins
  | append_singleton elements e ih =>
    rw [ofElements_concat, Scan.select_concat, insert]
    cases named : e.iri with
    | none => exact (unnamed _ e).trans ih
    | some iri =>
      change list (insertNamed (insertAxiom anchors (ofElements anchors elements) e) iri e) = _
      rw [grows, unnamed, ih]

private theorem listed_subclasses (c : Iri) :
    listed (ofElements anchors elements).subclasses c =
      Scan.select elements fun e => e.superclasses.contains c := by
  refine list_eq_select anchors elements (fun index => listed index.subclasses c) _ rfl ?_ ?_
  · intro index e
    rw [insertAxiom_eq]
  · intro index iri e
    simp only [insertNamed, listed_listUnder, List.contains_iff_mem]

private theorem listed_typed (c : Iri) :
    listed (ofElements anchors elements).typed c =
      Scan.select elements fun e => e.types.contains c := by
  refine list_eq_select anchors elements (fun index => listed index.typed c) _ rfl ?_ ?_
  · intro index e
    rw [insertAxiom_eq]
  · intro index iri e
    simp only [insertNamed, listed_listUnder, List.contains_iff_mem]

private theorem kinds_ofElements :
    (ofElements anchors elements).kinds =
      ElementKind.all.map fun kind => (kind, Scan.select elements fun e => e.hasKind kind) := by
  induction elements using List.reverseRecOn with
  | nil => rfl
  | append_singleton elements e ih =>
    rw [ofElements_concat, insert, insertAxiom_eq]
    cases named : e.iri with
    | none => simpa only [Scan.select_concat, named] using ih
    | some iri =>
      simp only [insertNamed, ih, List.map_map, Function.comp_def, Scan.select_concat, named]

private theorem candidates_ofElements :
    (ofElements anchors elements).candidates =
      Scan.select elements FieldProperty.isPartOf := by
  refine list_eq_select anchors elements Index.candidates _ rfl ?_ ?_
  · intro index e
    rw [insertAxiom_eq]
  · intro index iri e
    rfl

private theorem axioms_ofElements (source : Iri) :
    (Table.get? (ofElements anchors elements).axiomsBySource source).getD [] =
      (elements.filterMap (AnnotatedAxiom.ofElement? anchors)).filter (·.source = source) := by
  induction elements using List.reverseRecOn with
  | nil => rfl
  | append_singleton elements e ih =>
    -- Only the axiom part of an insertion touches this table, named element or not.
    have named : (ofElements anchors (elements ++ [e])).axiomsBySource =
        (insertAxiom anchors (ofElements anchors elements) e).axiomsBySource := by
      rw [ofElements_concat, insert]
      cases e.iri <;> rfl
    rw [named, List.filterMap_append, List.filter_append, insertAxiom]
    cases found : AnnotatedAxiom.ofElement? anchors e with
    | none => simpa [found] using ih
    | some a =>
      simp only [Table.get?_alter, List.filterMap_cons, found, List.filterMap_nil]
      by_cases same : a.source = source
      · subst same
        simp [ih]
      · simpa [same] using ih

private theorem linked_unnamed {e : Element} (unnamed : e.iri = none) : e.linked = [] := by
  simp only [Element.linked, unnamed]

private theorem linked_ofElements :
    (ofElements anchors elements).linked =
      Distinct.ofList (elements.flatMap Element.linked) := by
  induction elements using List.reverseRecOn with
  | nil => rfl
  | append_singleton elements e ih =>
    have grown : Distinct.ofList ((elements ++ [e]).flatMap Element.linked) =
        Distinct.addAll (Distinct.ofList (elements.flatMap Element.linked)) e.linked := by
      rw [List.flatMap_append, List.flatMap_singleton, Distinct.ofList_append]
    rw [grown, ofElements_concat, insert, insertAxiom_eq, ← ih]
    cases named : e.iri with
    | none => rw [linked_unnamed named]; rfl
    | some iri => rfl

end

end Index

section
variable (anchors : Anchors) (notices : List String) (elements : List Element)

private theorem instances_agree (c : Iri) :
    (indexed anchors notices elements).instances c = Scan.instances elements c := by
  simp only [indexed, Index.listed_typed, Index.get?_merged, Scan.instances_eq_filter]

private theorem fieldProperties_agree :
    (indexed anchors notices elements).fieldProperties =
      Scan.fieldProperties anchors elements := by
  simp only [indexed, Index.fieldProperties, Index.candidates_ofElements, Index.get?_merged,
    Scan.fieldProperties_eq_flatMap]

private theorem ofKind_agree (kind : ElementKind) :
    (indexed anchors notices elements).ofKind kind =
      Scan.select elements fun e => e.hasKind kind := by
  simp only [indexed, Index.kinds_ofElements]
  cases kind <;> rfl

/-- Indexes are a cache of the passes: apart from the name of the strategy, both graphs are one. -/
theorem indexed_eq_scanned :
    indexed anchors notices elements =
      { scanned anchors notices elements with strategy := .inMemory } := by
  have found : (indexed anchors notices elements).element? = Scan.element? elements :=
    funext (Index.get?_merged anchors elements)
  have below : (indexed anchors notices elements).directSubclasses =
      fun c => Scan.select elements fun e => e.superclasses.contains c :=
    funext (Index.listed_subclasses anchors elements)
  have kinds : (indexed anchors notices elements).ofKind =
      fun kind => Scan.select elements fun e => e.hasKind kind :=
    funext (ofKind_agree anchors notices elements)
  have instances : (indexed anchors notices elements).instances = Scan.instances elements :=
    funext (instances_agree anchors notices elements)
  have axioms : (indexed anchors notices elements).axiomsOf = fun source =>
      (elements.filterMap (AnnotatedAxiom.ofElement? anchors)).filter (·.source = source) :=
    funext (Index.axioms_ofElements anchors elements)
  have properties := fieldProperties_agree anchors notices elements
  have linked : (indexed anchors notices elements).linked =
      Distinct.ofList (elements.flatMap Element.linked) :=
    Index.linked_ofElements anchors elements
  calc indexed anchors notices elements
      = { strategy := .inMemory
          element? := (indexed anchors notices elements).element?
          directSubclasses := (indexed anchors notices elements).directSubclasses
          ofKind := (indexed anchors notices elements).ofKind
          instances := (indexed anchors notices elements).instances
          axiomsOf := (indexed anchors notices elements).axiomsOf
          fieldProperties := (indexed anchors notices elements).fieldProperties
          linked := (indexed anchors notices elements).linked
          notices } := rfl
    _ = { scanned anchors notices elements with strategy := .inMemory } := by
        rw [found, below, kinds, instances, axioms, properties, linked]
        rfl

theorem Agrees.of_strategy (g : Graph) (strategy : AccessStrategy) :
    Agrees { g with strategy } g := by
  constructor <;> intros <;> rfl

end

/-- The two access strategies agree on every document, for every choice of anchors: either reading
fails with one and the same fault, or both graphs open, answer every question alike, and are mapped
to the same vocabularies, the same nodes and the same messages whatever becomes a node. -/
theorem strategies_agree (anchors : Anchors) (bytes : Markup.Bytes) :
    match ofBytes .inMemory anchors bytes, ofBytes .streaming anchors bytes with
    | .ok held, .ok streamed =>
      Agrees held streamed ∧ ∀ options : Mapping.NodeOptions,
        let fromHeld : Mapping.Source := ⟨held, anchors, options⟩
        let fromStreamed : Mapping.Source := ⟨streamed, anchors, options⟩
        fromHeld.vocabularyRecords = fromStreamed.vocabularyRecords ∧
          fromHeld.nodeEntities.map fromHeld.nodeRecord? =
            fromStreamed.nodeEntities.map fromStreamed.nodeRecord? ∧
          fromHeld.nodeRecords.value = fromStreamed.nodeRecords.value ∧
          fromHeld.nodeRecords.messages = fromStreamed.nodeRecords.messages
    | .error fault, .error other => fault = other
    | _, _ => False := by
  unfold ofBytes
  cases read : Ontology.Reading.whole bytes with
  | error fault => rfl
  | ok reading =>
    simp only [Except.map, ofElements, indexed_eq_scanned]
    refine ⟨Agrees.of_strategy _ _, ?_⟩
    intro options
    exact ⟨rfl, rfl, rfl, rfl⟩

end ContentImport.Graph
