import ContentImport.Graph.Opening
import ContentImport.Hierarchy
import ContentImport.Proofs.Graph.Agreement
import ContentImport.Proofs.Hierarchy.Walk
import ContentImport.Proofs.Ontology.Merge

/-!
Subclass statements in both directions. A graph that is opened answers from the same statements what
lies directly below a class and what lies directly above one, so its closures downward and upward
find the two ends of the same paths.
-/

set_option autoImplicit false
set_option relaxedAutoImplicit false

namespace ContentImport.Graph

open ContentImport.Ontology
open Relation

/-- A graph whose answers about classes below and above are two sides of the same statements, all
between classes that it lists. -/
structure Coherent (g : Graph) : Prop where
  converse : ∀ c d, d ∈ g.directSubclasses c ↔ c ∈ g.directSuperclasses d
  linked : ∀ c d, c ∈ g.directSuperclasses d → c ∈ g.linked ∧ d ∈ g.linked

/-- Subclass statements lead from a class up to another. -/
def LeadsUp (g : Graph) : Iri → Iri → Prop :=
  TransGen fun a b => b ∈ g.directSuperclasses a

namespace Coherent

variable {g : Graph} {c d : Iri}

theorem linked_above (coherent : g.Coherent) : ∀ a, ∀ b ∈ g.directSuperclasses a, b ∈ g.linked :=
  fun a b above => (coherent.linked b a above).1

theorem linked_below (coherent : g.Coherent) : ∀ a, ∀ b ∈ g.directSubclasses a, b ∈ g.linked :=
  fun a b below => (coherent.linked a b ((coherent.converse a b).mp below)).2

theorem mem_allSuperclasses_iff (coherent : g.Coherent) :
    c ∈ g.allSuperclasses d ↔ c ≠ d ∧ g.LeadsUp d c :=
  Hierarchy.mem_breadthFirst_iff coherent.linked_above

theorem mem_allSubclasses_iff (coherent : g.Coherent) :
    d ∈ g.allSubclasses c ↔ d ≠ c ∧ g.LeadsUp d c := by
  rw [allSubclasses, Hierarchy.mem_depthFirst_iff coherent.linked_below]
  refine and_congr_right fun _ => ?_
  simp only [coherent.converse]
  exact transGen_swap

theorem isBelow_iff (coherent : g.Coherent) : g.isBelow d c = true ↔ c ≠ d ∧ g.LeadsUp d c := by
  rw [isBelow, decide_eq_true_iff, coherent.mem_allSuperclasses_iff]

theorem isInstance_iff (coherent : g.Coherent) {individual : Iri} :
    g.isInstance individual c = true ↔ ∃ type ∈ g.types individual, type = c ∨ g.LeadsUp type c := by
  rw [isInstance, List.any_eq_true]
  refine exists_congr fun type => and_congr_right fun _ => ?_
  rw [Bool.or_eq_true, decide_eq_true_iff, coherent.isBelow_iff]
  constructor
  · exact Or.imp_right And.right
  · intro related
    by_cases same : type = c
    · exact .inl same
    · exact .inr ⟨Ne.symm same, related.resolve_left same⟩

end Coherent

theorem Scan.mem_select_iff (elements : List Element) (wanted : Element → Bool) (iri : Iri) :
    iri ∈ select elements wanted ↔ ∃ e ∈ elements, e.iri = some iri ∧ wanted e = true := by
  induction elements using List.reverseRecOn with
  | nil => simp [select]
  | append_singleton elements e ih =>
    have last : (∃ a ∈ elements ++ [e], a.iri = some iri ∧ wanted a = true) ↔
        iri ∈ select elements wanted ∨ e.iri = some iri ∧ wanted e = true := by
      simp only [ih, List.mem_append, List.mem_singleton, or_and_right, exists_or, exists_eq_left]
    rw [select_concat, last]
    cases named : e.iri with
    | none => simp
    | some other =>
      by_cases chosen : wanted e = true
      · simp [chosen, eq_comm]
      · simp [chosen]

theorem Scan.statements_element? (elements : List Element) (iri : Iri) :
    ((Scan.element? elements iri).map Element.statements).getD [] =
      (elements.filter (·.iri = some iri)).flatMap Element.statements := by
  induction elements using List.reverseRecOn with
  | nil => rfl
  | append_singleton elements e ih =>
    rw [Scan.element?_concat, List.filter_append, List.flatMap_append, ← ih]
    by_cases described : e.iri = some iri
    · cases Scan.element? elements iri with
      | none => simp [described]
      | some earlier => simp [described, Element.merge]
    · simp [described]

theorem Scan.mem_element?_iff {list : Element → List Iri}
    (joins : ∀ e other : Element, ∀ c, c ∈ list (e.merge other) ↔ c ∈ list e ∨ c ∈ list other)
    (elements : List Element) (c d : Iri) :
    c ∈ ((Scan.element? elements d).map list).getD [] ↔
      ∃ e ∈ elements, e.iri = some d ∧ c ∈ list e := by
  induction elements using List.reverseRecOn with
  | nil => simp [Scan.element?]
  | append_singleton elements e ih =>
    have last : (∃ a ∈ elements ++ [e], a.iri = some d ∧ c ∈ list a) ↔
        c ∈ ((Scan.element? elements d).map list).getD [] ∨ e.iri = some d ∧ c ∈ list e := by
      simp only [ih, List.mem_append, List.mem_singleton, or_and_right, exists_or, exists_eq_left]
    rw [Scan.element?_concat, last]
    by_cases described : e.iri = some d
    · cases Scan.element? elements d with
      | none => simp [described]
      | some earlier => simp [described, joins]
    · simp [described]

private theorem mem_superclasses_element? (elements : List Element) (c d : Iri) :
    c ∈ ((Scan.element? elements d).map Element.superclasses).getD [] ↔
      ∃ e ∈ elements, e.iri = some d ∧ c ∈ e.superclasses :=
  Scan.mem_element?_iff (fun e other c => by
    rw [Element.superclasses_merge, Distinct.mem_addAll]) elements c d

private theorem scanned_coherent (anchors : Anchors) (notices : List String)
    (elements : List Element) : (scanned anchors notices elements).Coherent := by
  constructor
  · intro c d
    have below : d ∈ (scanned anchors notices elements).directSubclasses c ↔
        ∃ e ∈ elements, e.iri = some d ∧ c ∈ e.superclasses := by
      simp [scanned, Scan.mem_select_iff]
    have above : c ∈ (scanned anchors notices elements).directSuperclasses d ↔
        ∃ e ∈ elements, e.iri = some d ∧ c ∈ e.superclasses :=
      mem_superclasses_element? elements c d
    exact below.trans above.symm
  · intro c d above
    obtain ⟨e, member, named, listed⟩ := (mem_superclasses_element? elements c d).mp above
    have both : c ∈ e.linked ∧ d ∈ e.linked := by
      unfold Element.linked
      cases classes : e.superclasses with
      | nil =>
        rw [classes] at listed
        cases listed
      | cons first others =>
        rw [classes] at listed
        rw [named]
        exact ⟨List.mem_cons_of_mem _ listed, List.mem_cons_self⟩
    simp only [scanned, Distinct.mem_ofList, List.mem_flatMap]
    exact ⟨⟨e, member, both.1⟩, ⟨e, member, both.2⟩⟩

/-- Every graph that is opened is coherent. -/
theorem ofElements_coherent (strategy : AccessStrategy) (anchors : Anchors) (notices : List String)
    (elements : List Element) : (ofElements strategy anchors notices elements).Coherent := by
  have coherent := scanned_coherent anchors notices elements
  cases strategy with
  | streaming => exact coherent
  | inMemory =>
    rw [ofElements, indexed_eq_scanned]
    exact ⟨coherent.converse, coherent.linked⟩

/-! ## Paths of statements -/

/-- A description of a class states that it is a subclass of another. -/
def StatedBelow (elements : List Element) (d c : Iri) : Prop :=
  ∃ e ∈ elements, e.iri = some d ∧ ⟨rdfsSubClassOf, .resource c⟩ ∈ e.statements

/-- The classes that the descriptions of a class put it below, in document order. -/
def statedSuperclasses (elements : List Element) (d : Iri) : List Iri :=
  Distinct.ofList ((elements.filter (·.iri = some d)).flatMap fun e =>
    (e.values rdfsSubClassOf).filterMap Term.resource?)

/-- Subclass statements lead from a class up to another, in one step or in several. -/
def PathUp (elements : List Element) : Iri → Iri → Prop :=
  TransGen (StatedBelow elements)

theorem mem_superclasses_iff (e : Element) (c : Iri) :
    c ∈ e.superclasses ↔ ⟨rdfsSubClassOf, .resource c⟩ ∈ e.statements := by
  rw [Element.superclasses, Element.resources, Distinct.mem_ofList, List.mem_filterMap]
  simp only [Element.values, List.mem_map, List.mem_filter, decide_eq_true_eq]
  constructor
  · rintro ⟨_, ⟨⟨predicate, object⟩, ⟨stated, rfl⟩, rfl⟩, resource⟩
    cases object with
    | literal _ => cases resource
    | resource iri =>
      obtain rfl := Option.some.inj resource
      exact stated
  · intro stated
    exact ⟨.resource c, ⟨_, ⟨stated, rfl⟩, rfl⟩, rfl⟩

section

variable (strategy : AccessStrategy) (anchors : Anchors) (notices : List String)
  (elements : List Element)

theorem ofElements_eq_scanned : ∃ other, ofElements strategy anchors notices elements =
    { scanned anchors notices elements with strategy := other } := by
  cases strategy with
  | streaming => exact ⟨.streaming, rfl⟩
  | inMemory => exact ⟨.inMemory, indexed_eq_scanned anchors notices elements⟩

theorem mem_directSuperclasses_iff (c d : Iri) :
    c ∈ (ofElements strategy anchors notices elements).directSuperclasses d ↔
      StatedBelow elements d c := by
  obtain ⟨other, same⟩ := ofElements_eq_scanned strategy anchors notices elements
  have listed : c ∈ (ofElements strategy anchors notices elements).directSuperclasses d ↔
      ∃ e ∈ elements, e.iri = some d ∧ c ∈ e.superclasses := by
    rw [same]
    exact mem_superclasses_element? elements c d
  simp only [listed, StatedBelow, mem_superclasses_iff]

theorem directSuperclasses_eq (d : Iri) :
    (ofElements strategy anchors notices elements).directSuperclasses d =
      statedSuperclasses elements d := by
  obtain ⟨other, same⟩ := ofElements_eq_scanned strategy anchors notices elements
  have stated := Scan.statements_element? elements d
  have listed : statedSuperclasses elements d = Distinct.ofList
      (((((Scan.element? elements d).map Element.statements).getD []).filter
        (·.predicate = rdfsSubClassOf)).filterMap (·.object.resource?)) := by
    rw [stated, List.filter_flatMap, List.filterMap_flatMap]
    simp only [statedSuperclasses, Element.values, List.filterMap_map, Function.comp_def]
  rw [same, directSuperclasses, listed]
  simp only [scanned]
  cases Scan.element? elements d with
  | none => rfl
  | some e =>
    simp [Element.superclasses, Element.resources, Element.values, List.filterMap_map]

theorem statedBelow_eq :
    (fun a b => b ∈ (ofElements strategy anchors notices elements).directSuperclasses a) =
      StatedBelow elements := by
  funext a b
  exact propext (mem_directSuperclasses_iff strategy anchors notices elements b a)

theorem leadsUp_iff (c d : Iri) :
    (ofElements strategy anchors notices elements).LeadsUp d c ↔ PathUp elements d c := by
  rw [LeadsUp, PathUp, statedBelow_eq]

theorem linked_nodup : (ofElements strategy anchors notices elements).linked.Nodup := by
  obtain ⟨other, same⟩ := ofElements_eq_scanned strategy anchors notices elements
  rw [same]
  exact Distinct.nodup_ofList _

/-- The closures of a graph are the paths of the subclass statements of some elements. Each closure
is what a loop finds that ends, and that keeps no more than the classes where it was. -/
structure ClosesPaths (g : Graph) (elements : List Element) : Prop where
  subclassesEnd : ∀ c,
    Hierarchy.Loop.Ends Hierarchy.stacked g.directSubclasses c (g.allSubclasses c)
  subclassesOnce : ∀ c, (g.allSubclasses c).Nodup
  subclasses : ∀ c d, d ∈ g.allSubclasses c ↔ d ≠ c ∧ PathUp elements d c
  superclassesEnd : ∀ d,
    Hierarchy.Loop.Ends Hierarchy.queued g.directSuperclasses d (g.allSuperclasses d)
  superclassesOnce : ∀ d, (g.allSuperclasses d).Nodup
  superclasses : ∀ c d, c ∈ g.allSuperclasses d ↔ d ≠ c ∧ PathUp elements d c
  dual : ∀ c d, d ∈ g.allSubclasses c ↔ c ∈ g.allSuperclasses d
  below : ∀ c d, g.isBelow d c = true ↔ d ≠ c ∧ PathUp elements d c
  instances : ∀ individual c, g.isInstance individual c = true ↔
    ∃ type ∈ g.types individual, type = c ∨ PathUp elements type c

/-- Every graph closes the paths of its elements, also where these are cycles and loops. -/
theorem closures_exact : (ofElements strategy anchors notices elements).ClosesPaths elements := by
  have coherent := ofElements_coherent strategy anchors notices elements
  have path := leadsUp_iff strategy anchors notices elements
  have once := linked_nodup strategy anchors notices elements
  generalize ofElements strategy anchors notices elements = g at coherent path once
  have closedUp : ∀ a, ∀ b ∈ g.directSuperclasses a, b ∈ g.linked := fun a b above =>
    (coherent.linked b a above).1
  have closedDown : ∀ a, ∀ b ∈ g.directSubclasses a, b ∈ g.linked := fun a b below =>
    (coherent.linked a b ((coherent.converse a b).mp below)).2
  have below : ∀ c d, d ∈ g.allSubclasses c ↔ d ≠ c ∧ PathUp elements d c := fun c d => by
    rw [coherent.mem_allSubclasses_iff, path]
  have above : ∀ c d, c ∈ g.allSuperclasses d ↔ d ≠ c ∧ PathUp elements d c := fun c d => by
    rw [coherent.mem_allSuperclasses_iff, path, ne_comm]
  exact
    { subclassesEnd := fun c => Hierarchy.ends_depthFirst once closedDown c
      subclassesOnce := fun c => Hierarchy.nodup_depthFirst once c
      subclasses := below
      superclassesEnd := fun d => Hierarchy.ends_breadthFirst once closedUp d
      superclassesOnce := fun d => Hierarchy.nodup_breadthFirst once d
      superclasses := above
      dual := fun c d => by rw [below, above]
      below := fun c d => by rw [isBelow, decide_eq_true_iff, above]
      instances := fun individual c => by
        rw [coherent.isInstance_iff]
        simp only [path] }

end

end ContentImport.Graph
