import ContentImport.Proofs.Mapping.Messages

/-!
The kind of a reference field. The targets of a property are classified one by one by what they lead
to, and the field takes the kind of the last of them that has one.
-/

set_option autoImplicit false
set_option relaxedAutoImplicit false

namespace ContentImport

open ContentImport.Ontology

/-! ## References -/

namespace FieldItem

/-- The kind of entity that a reference leads to; a value leads to none. -/
def kind? : FieldItem → Option ReferenceKind
  | .node _ => some .node
  | .tag _ => some .taxonomyTerm
  | .file _ => some .file
  | .literal _ => none

/-- Whether a reference can be written only once every entity is created. -/
def waits (item : FieldItem) : Bool :=
  item.kind?.any ReferenceKind.isDeferred

variable {items : List FieldItem} {kind : Option ReferenceKind}

theorem forall_kind_iff {α : Type} (last : kind = (items.filterMap kind?).getLast?)
    (sort : Option ReferenceKind → α) :
    (∀ item ∈ items, sort item.kind? = sort kind) ↔
      ∀ a ∈ items, ∀ b ∈ items, sort a.kind? = sort b.kind? := by
  constructor
  · exact fun same a first b second => (same a first).trans (same b second).symm
  · intro alike item listed
    cases kind with
    | none =>
      have plain := List.filterMap_eq_nil_iff.mp (List.getLast?_eq_none_iff.mp last.symm)
      rw [plain item listed]
    | some k =>
      obtain ⟨other, among, found⟩ := List.mem_filterMap.mp (List.mem_of_getLast? last.symm)
      rw [← found]
      exact alike item listed other among

end FieldItem

/-! ## Fields of properties -/

namespace Mapping.Source

private theorem kindOf_eq (items : List (FieldItem × Option ReferenceKind)) :
    kindOf items = (items.filterMap (·.2)).getLast? := by
  have folded : ∀ start, items.foldl (fun kind item => item.2.or kind) start =
      (items.filterMap (·.2)).getLast?.or start := by
    induction items with
    | nil => exact fun start => rfl
    | cons item items ih =>
      intro start
      rw [List.foldl_cons, ih]
      cases kind : item.2 with
      | none => rw [List.filterMap_cons_none kind, Option.none_or]
      | some k =>
        rw [List.filterMap_cons_some kind, List.getLast?_cons]
        cases (items.filterMap (·.2)).getLast? <;> rfl
  exact (folded none).trans Option.or_none

variable {s : Source} {entity property : Iri} {e : Element} {axioms : AxiomIndex}

/-- A target becomes a node, a file, a tag or the value of a generic entity, which alone is of no
kind. -/
theorem targetItem?_cases {target : Iri} {item : FieldItem} {kind : Option ReferenceKind}
    (mapped : (s.targetItem? entity property target axioms).value = some (item, kind)) :
    item = .node target.text ∧ kind = some .node ∨
      (∃ uri, item = .file uri ∧ kind = some .file) ∨
      (s.tagItem? target = some item ∧ kind = some .taxonomyTerm) ∨
      ∃ text, item = .literal text ∧ kind = none := by
  unfold targetItem? at mapped
  split at mapped
  · obtain ⟨rfl, rfl⟩ := Prod.mk.inj (Option.some.inj mapped)
    exact .inl ⟨rfl, rfl⟩
  · split at mapped
    · split at mapped
      · next uri _ =>
        obtain ⟨rfl, rfl⟩ := Prod.mk.inj (Option.some.inj mapped)
        exact .inr (.inl ⟨uri, rfl, rfl⟩)
      · cases mapped
    · split at mapped
      · next tag tagged =>
        obtain ⟨rfl, rfl⟩ := Prod.mk.inj (Option.some.inj mapped)
        exact .inr (.inr (.inl ⟨tagged, rfl⟩))
      · split at mapped
        · obtain ⟨text, -, same⟩ := Option.map_eq_some_iff.mp mapped
          obtain ⟨rfl, rfl⟩ := Prod.mk.inj same
          exact .inr (.inr (.inr ⟨text, rfl, rfl⟩))
        · cases mapped

private theorem kind?_of_targetItem? {target : Iri} {item : FieldItem} {kind : Option ReferenceKind}
    (mapped : (s.targetItem? entity property target axioms).value = some (item, kind)) :
    item.kind? = kind := by
  rcases targetItem?_cases mapped with
    ⟨rfl, rfl⟩ | ⟨uri, rfl, rfl⟩ | ⟨tagged, rfl⟩ | ⟨text, rfl, rfl⟩
  · rfl
  · rfl
  · obtain ⟨vocabulary, -, rfl⟩ := Option.map_eq_some_iff.mp tagged
    rfl
  · rfl

/-- The resources among the values of a property, in the order of the axioms about it. -/
def targetsOf (axioms : AxiomIndex) (property : Iri) (values : List Term) : List Iri :=
  (axioms.orderValues property values).filterMap Term.resource?

theorem nodeField?_eq (s : Source) (entity : Iri) (axioms : AxiomIndex)
    (plain : (e.values property).filter (·.literal?.isSome) = []) :
    let targets := targetsOf axioms property (e.values property)
    let items := targets.filterMap fun target =>
      (s.targetItem? entity property target axioms).value
    (s.nodeField? entity e property axioms).value = (if items.isEmpty then none else
        some (.named property.localName (.references (items.map (·.1))) (kindOf items))) ∧
      (s.nodeField? entity e property axioms).messages = targets.flatMap fun target =>
        (s.targetItem? entity property target axioms).messages := by
  intro targets items
  have mapped : ((targets.mapM fun target =>
      s.targetItem? entity property target axioms).value).filterMap id = items := by
    rw [Noted.value_mapM, List.filterMap_map]
    rfl
  unfold nodeField?
  simp only [plain, List.isEmpty_nil, Bool.not_true, Bool.false_eq_true, if_false,
    Noted.value_bind, Noted.messages_bind]
  constructor
  · rw [← mapped]
    exact apply_ite Noted.value _ _ _
  · split <;> simp [Noted.messages_mapM, targets, targetsOf]

/-- The field of a property holds texts, or what some of its targets become; the last kind among
these is its own. -/
theorem nodeField?_cases {f : FieldRecord}
    (field : (s.nodeField? entity e property axioms).value = some f) :
    (∃ texts, f = .named property.localName (.literals texts) none) ∨
      ∃ items, (∀ item ∈ items, ∃ target kind,
          (s.targetItem? entity property target axioms).value = some (item, kind)) ∧
        items ≠ [] ∧ f = .named property.localName (.references items)
          (items.filterMap FieldItem.kind?).getLast? := by
  unfold nodeField? at field
  simp only at field
  split at field
  · exact .inl ⟨_, (Option.some.inj field).symm⟩
  · simp only [Noted.value_bind, Noted.value_mapM] at field
    generalize listed : List.filterMap id (List.map _ _) = mapped at field
    split at field
    · cases field
    · next some =>
      have targets : ∀ pair ∈ mapped, ∃ target,
          (s.targetItem? entity property target axioms).value = .some pair := by
        intro pair member
        rw [← listed] at member
        obtain ⟨outcome, among, same⟩ := List.mem_filterMap.mp member
        obtain ⟨target, -, rfl⟩ := List.mem_map.mp among
        exact ⟨target, same⟩
      refine .inr ⟨mapped.map (·.1), ?_, by simpa using some, ?_⟩
      · intro item among
        obtain ⟨pair, member, rfl⟩ := List.mem_map.mp among
        obtain ⟨target, same⟩ := targets pair member
        exact ⟨target, pair.2, same⟩
      · have kinds : ∀ pair ∈ mapped, pair.2 = pair.1.kind? := by
          intro pair member
          obtain ⟨target, same⟩ := targets pair member
          exact (kind?_of_targetItem? same).symm
        rw [← Option.some.inj field, kindOf_eq, List.filterMap_map]
        exact congrArg _ (congrArg _ (List.filterMap_congr kinds))

theorem nodeFields_cases (s : Source) (entity : Iri) (e : Element) :
    ∃ others, (s.nodeFields entity e).value = s.bodyField e :: others ∧ ∀ f, f ∈ others ↔
      s.options.linksClassTree = true ∧
          (f = s.parentField entity e ∨ e.hasKind .owlClass = true ∧ f = s.childField entity) ∨
        s.graph.descendsFrom entity s.anchors.vocabulary = true ∧
          f = .named "field_tags" (.references (s.tagItems entity)) (some .taxonomyTerm) ∨
        ∃ p ∈ s.graph.fieldProperties, e.hasValue p.iri = true ∧
          (s.nodeField? entity e p.iri ⟨s.graph.axiomsOf entity⟩).value = some f := by
  refine ⟨_, s.value_nodeFields entity e, fun f => ?_⟩
  rw [List.mem_append, List.mem_append, or_assoc]
  refine or_congr ?_ (or_congr ?_ ?_)
  · rw [treeFields]
    split
    · next linked => split <;> simp_all
    · next unlinked => simp [unlinked]
  · rw [tagFields]
    split <;> simp_all
  · simp [List.mem_filterMap, and_assoc]

end Mapping.Source

end ContentImport
