import ContentImport.Ontology.Annotation
import Mathlib.Data.List.Nodup

/-!
The order of values. Axioms take the values of a property one after the other, each the first copy
that is left of its target, and what no axiom takes follows. So nothing is lost or added, copies
keep their order, and the first copies of two values stand as the lowest positions given to them do.
-/

set_option autoImplicit false
set_option relaxedAutoImplicit false

namespace ContentImport.Ontology

/-! ## Positions -/

namespace AnnotatedAxiom

private theorem inOrder_sorted (axioms : List AnnotatedAxiom) :
    (inOrder axioms).Pairwise fun a b => a.notAfter b = true :=
  List.pairwise_mergeSort notAfter_trans notAfter_total axioms

private theorem inOrder_cons (a : AnnotatedAxiom) (axioms : List AnnotatedAxiom) :
    ∃ lower rest, inOrder (a :: axioms) = lower ++ a :: rest ∧ inOrder axioms = lower ++ rest ∧
      (∀ b ∈ lower, a.notAfter b = false) ∧ ∀ b ∈ rest, a.notAfter b = true := by
  obtain ⟨lower, rest, placed, others, before⟩ :=
    List.mergeSort_cons notAfter_trans notAfter_total a axioms
  have sorted : (lower ++ a :: rest).Pairwise fun a b => a.notAfter b = true :=
    placed ▸ inOrder_sorted (a :: axioms)
  have behind := (List.pairwise_cons.mp (List.pairwise_append.mp sorted).2.1).1
  exact ⟨lower, rest, placed, others, fun b member => by simpa using before b member, behind⟩

private theorem append_eq_append (test : AnnotatedAxiom → Bool)
    {before behind before' behind' : List AnnotatedAxiom}
    (same : before ++ behind = before' ++ behind') (fails : ∀ b ∈ before, test b = false)
    (passes : ∀ b ∈ behind, test b = true) (fails' : ∀ b ∈ before', test b = false)
    (passes' : ∀ b ∈ behind', test b = true) : before = before' ∧ behind = behind' := by
  have picked := congrArg (List.filter test) same
  have none : before.filter test = [] := by simpa [List.filter_eq_nil_iff] using fails
  have none' : before'.filter test = [] := by simpa [List.filter_eq_nil_iff] using fails'
  rw [List.filter_append, List.filter_append, none, none', List.filter_eq_self.mpr passes,
    List.filter_eq_self.mpr passes', List.nil_append, List.nil_append] at picked
  rw [picked] at same
  exact ⟨List.append_cancel_right same, picked⟩

theorem filter_inOrder (keep : AnnotatedAxiom → Bool) (axioms : List AnnotatedAxiom) :
    (inOrder axioms).filter keep = inOrder (axioms.filter keep) := by
  induction axioms with
  | nil => simp [inOrder]
  | cons a axioms ih =>
    obtain ⟨lower, rest, placed, others, before, behind⟩ := inOrder_cons a axioms
    rw [others, List.filter_append] at ih
    rw [placed, List.filter_append]
    by_cases kept : keep a = true
    · obtain ⟨lower', rest', placed', others', before', behind'⟩ :=
        inOrder_cons a (axioms.filter keep)
      rw [others'] at ih
      obtain ⟨fewer, fewer'⟩ := append_eq_append a.notAfter ih
        (fun b member => before b (List.mem_filter.mp member).1)
        (fun b member => behind b (List.mem_filter.mp member).1) before' behind'
      rw [List.filter_cons_of_pos kept, List.filter_cons_of_pos kept, placed', fewer, fewer']
    · rw [List.filter_cons_of_neg kept, List.filter_cons_of_neg kept, ih]

private theorem inOrder_eq_of_perm {axioms others : List AnnotatedAxiom} (perm : axioms.Perm others)
    (distinct : (axioms.map (·.refNum)).Nodup) : inOrder axioms = inOrder others := by
  have found := axioms.mergeSort_perm notAfter
  have perm' := (found.trans perm).trans (others.mergeSort_perm notAfter).symm
  refine List.Perm.eq_of_pairwise ?_ (inOrder_sorted axioms) (inOrder_sorted others) perm'
  intro a b first second before after
  have position : a.refNum = b.refNum := by
    unfold notAfter at before after
    cases ha : a.refNum <;> cases hb : b.refNum <;> simp_all
    omega
  have listed : a ∈ axioms := found.mem_iff.mp first
  have listed' : b ∈ axioms := perm.mem_iff.mpr (List.mem_mergeSort.mp second)
  exact List.inj_on_of_nodup_map distinct listed listed' position

end AnnotatedAxiom

/-! ## Taking values -/

private theorem Term.sameValue_congr {s t : Term} (same : s.sameValue t = true) (u : Term) :
    s.sameValue u = t.sameValue u := by
  cases s <;> cases t <;> simp only [sameValue, Bool.false_eq_true, decide_eq_true_eq] at same
  · rw [same]
  · cases u <;> simp only [sameValue, same]

namespace AxiomIndex

/-- Axioms take values one after the other, each the first that is its target. -/
inductive Takes : List AnnotatedAxiom → List Term → List Term → Prop
  | done (values : List Term) : Takes [] values values
  | taken {a : AnnotatedAxiom} {axioms : List AnnotatedAxiom} {before after result : List Term}
      {v : Term} (same : v.sameValue a.target = true)
      (first : ∀ u ∈ before, u.sameValue a.target = false)
      (rest : Takes axioms (before ++ after) result) :
      Takes (a :: axioms) (before ++ v :: after) (v :: result)
  | passed {a : AnnotatedAxiom} {axioms : List AnnotatedAxiom} {values result : List Term}
      (absent : ∀ u ∈ values, u.sameValue a.target = false) (rest : Takes axioms values result) :
      Takes (a :: axioms) values result

private theorem arrange_cons {a : AnnotatedAxiom} {axioms : List AnnotatedAxiom}
    {before after : List Term}
    {v : Term} (same : v.sameValue a.target = true)
    (first : ∀ u ∈ before, u.sameValue a.target = false) :
    arrange (a :: axioms) (before ++ v :: after) = v :: arrange axioms (before ++ after) := by
  have found : (before ++ v :: after).find? (·.sameValue a.target) = some v :=
    List.find?_eq_some_iff_append.mpr ⟨same, before, after, rfl, by simpa using first⟩
  have left : (before ++ v :: after).eraseP (·.sameValue a.target) = before ++ after := by
    rw [List.eraseP_append_right _ (by simpa using first), List.eraseP_cons, same, cond_true]
  rw [arrange, found, left]

theorem takes_arrange (axioms : List AnnotatedAxiom) (values : List Term) :
    Takes axioms values (arrange axioms values) := by
  induction axioms generalizing values with
  | nil => exact .done values
  | cons a axioms ih =>
    cases found : values.find? (·.sameValue a.target) with
    | some v =>
      obtain ⟨same, before, after, rfl, first⟩ := List.find?_eq_some_iff_append.mp found
      have others : ∀ u ∈ before, u.sameValue a.target = false := by simpa using first
      rw [arrange_cons same others]
      exact .taken same others (ih _)
    | none =>
      rw [arrange, found]
      exact .passed (by simpa using found) (ih values)

/-- The first copy of a value stands before every copy of another. -/
def Precedes (values : List Term) (x y : Term) : Prop :=
  values.findIdx (·.sameValue x) < values.findIdx (·.sameValue y)

namespace Takes

variable {axioms : List AnnotatedAxiom} {values result : List Term}

theorem perm (takes : Takes axioms values result) : result.Perm values := by
  induction takes with
  | done values => exact .refl values
  | taken same first rest ih => exact (ih.cons _).trans List.perm_middle.symm
  | passed absent rest ih => exact ih

private theorem copies (takes : Takes axioms values result) (x : Term) :
    result.filter (·.sameValue x) = values.filter (·.sameValue x) := by
  -- Copies of one value keep their order, since it is always the first that is taken.
  induction takes with
  | done values => rfl
  | @taken a axioms before after result v same first rest ih =>
    rw [List.filter_append] at ih ⊢
    by_cases copy : v.sameValue x = true
    · have none : before.filter (·.sameValue x) = [] := by
        rw [List.filter_eq_nil_iff]
        intro u member alike
        have target : u.sameValue a.target = v.sameValue a.target := by
          rw [Term.sameValue_congr alike, Term.sameValue_congr copy]
        rw [first u member, same] at target
        cases target
      rw [List.filter_cons, List.filter_cons, if_pos copy, if_pos copy, ih, none, List.nil_append,
        List.nil_append]
    · rw [List.filter_cons, List.filter_cons, if_neg copy, if_neg copy, ih]
  | passed absent rest ih => exact ih

private theorem untaken (takes : Takes axioms values result) {keep : Term → Bool}
    (free : ∀ u, keep u = true → ∀ a ∈ axioms, u.sameValue a.target = false) :
    result.filter keep = values.filter keep := by
  induction takes with
  | done values => rfl
  | @taken a axioms before after result v same first rest ih =>
    have later := ih fun u kept b member => free u kept b (List.mem_cons_of_mem _ member)
    have dropped : ¬ keep v = true := by
      intro kept
      rw [free v kept a List.mem_cons_self] at same
      cases same
    rw [List.filter_append] at later ⊢
    rw [List.filter_cons_of_neg dropped, List.filter_cons_of_neg dropped, later]
  | passed absent rest ih =>
    exact ih fun u kept b member => free u kept b (List.mem_cons_of_mem _ member)

/-- Without the copies of one value, the others are taken in the order in which they are taken with
them: an axiom that would take a copy is passed over. -/
theorem filter_eq (takes : Takes axioms values result) (x : Term) :
    arrange axioms (values.filter (!·.sameValue x)) = result.filter (!·.sameValue x) := by
  induction takes with
  | done values => rfl
  | @taken a axioms before after result v same first rest ih =>
    rw [List.filter_append] at ih ⊢
    by_cases copy : v.sameValue x = true
    · have target : a.target.sameValue x = true := by
        rw [← Term.sameValue_congr same, copy]
      have dropped : ¬ (!v.sameValue x) = true := by simp [copy]
      have absent : (before.filter (!·.sameValue x) ++ after.filter (!·.sameValue x)).find?
          (·.sameValue a.target) = none := by
        rw [← List.filter_append]
        refine List.find?_eq_none.mpr fun u kept about => ?_
        have other := (List.mem_filter.mp kept).2
        rw [Term.sameValue_congr about, target] at other
        cases other
      rw [List.filter_cons, List.filter_cons, if_neg dropped, if_neg dropped, arrange, absent]
      exact ih
    · have kept : (!v.sameValue x) = true := by simpa using copy
      have others : ∀ u ∈ before.filter (!·.sameValue x), u.sameValue a.target = false :=
        fun u member => first u (List.mem_filter.mp member).1
      rw [List.filter_cons, List.filter_cons, if_pos kept, if_pos kept, arrange_cons same others, ih]
  | @passed a axioms values result absent rest ih =>
    have none : (values.filter (!·.sameValue x)).find? (·.sameValue a.target) = none :=
      List.find?_eq_none.mpr fun u kept => by simp [absent u (List.mem_filter.mp kept).1]
    rw [arrange, none]
    exact ih

private theorem precedes (takes : Takes axioms values result) {x y : Term}
    (earlier : axioms.findIdx (x.sameValue ·.target) < axioms.findIdx (y.sameValue ·.target))
    (held : ∃ u ∈ values, u.sameValue x = true) : Precedes result x y := by
  induction takes with
  | done values => simp at earlier
  | @taken a axioms before after result v same first rest ih =>
    have other : y.sameValue a.target = false := by
      refine Bool.eq_false_iff.mpr fun about => ?_
      simp [List.findIdx_cons, about] at earlier
    have notY : v.sameValue y = false := by
      rw [Term.sameValue_congr same, Term.sameValue_comm, other]
    have isX : v.sameValue x = x.sameValue a.target := by
      rw [Term.sameValue_congr same, Term.sameValue_comm]
    unfold Precedes at ih ⊢
    rw [List.findIdx_cons, List.findIdx_cons, notY, isX]
    cases about : x.sameValue a.target with
    | true => exact Nat.zero_lt_succ _
    | false =>
      refine Nat.succ_lt_succ (ih ?_ ?_)
      · simpa [List.findIdx_cons, about, other] using earlier
      · obtain ⟨u, member, copy⟩ := held
        refine ⟨u, ?_, copy⟩
        have differs : u ≠ v := by
          rintro rfl
          rw [isX, about] at copy
          cases copy
        simpa [differs] using member
  | @passed a axioms values result absent rest ih =>
    obtain ⟨u, member, copy⟩ := held
    have about : x.sameValue a.target = false := by
      rw [← Term.sameValue_congr copy, absent u member]
    have other : y.sameValue a.target = false := by
      refine Bool.eq_false_iff.mpr fun about => ?_
      simp [List.findIdx_cons, about] at earlier
    refine ih ?_ ⟨u, member, copy⟩
    simpa [List.findIdx_cons, about, other] using earlier

end Takes

/-! ## Values in order -/

def positions (index : AxiomIndex) (property : Iri) (value : Term) : List Int :=
  (index.axioms.filter fun a =>
    a.property = property && value.sameValue a.target).filterMap (·.refNum)

/-- The lowest position of a value is below all of another, which may have none. -/
def Leads (index : AxiomIndex) (property : Iri) (x y : Term) : Prop :=
  ∃ i ∈ index.positions property x, ∀ j ∈ index.positions property y, i < j

instance (index : AxiomIndex) (property : Iri) (x y : Term) :
    Decidable (index.Leads property x y) :=
  inferInstanceAs (Decidable (∃ i ∈ index.positions property x,
    ∀ j ∈ index.positions property y, i < j))

def isMatched (index : AxiomIndex) (property : Iri) (value : Term) : Bool :=
  index.axioms.any fun a => a.property = property && value.sameValue a.target

/-- Values of a property in the order that the axioms about it give. -/
structure Arranged (index : AxiomIndex) (property : Iri) (values result : List Term) : Prop where
  perm : result.Perm values
  byPosition : ∀ x ∈ values, ∀ y ∈ values, index.Leads property x y → Precedes result x y
  matchedFirst : ∀ x ∈ values, ∀ y ∈ values, index.isMatched property x = true →
    index.isMatched property y = false → Precedes result x y
  unmatched : result.filter (!index.isMatched property ·) =
    values.filter (!index.isMatched property ·)
  copies : ∀ x, result.filter (·.sameValue x) = values.filter (·.sameValue x)

variable {index : AxiomIndex} {property : Iri}

private theorem mem_forProperty {a : AnnotatedAxiom} :
    a ∈ index.forProperty property ↔ a ∈ index.axioms ∧ a.property = property := by
  simp [forProperty, AnnotatedAxiom.inOrder]

private theorem findIdx_lt_findIdx {axioms : List AnnotatedAxiom}
    (sorted : axioms.Pairwise fun a b => a.notAfter b = true) {x y : Term} {a : AnnotatedAxiom}
    (listed : a ∈ axioms) (about : x.sameValue a.target = true)
    (lower : ∀ b ∈ axioms, y.sameValue b.target = true → b.notAfter a = false) :
    axioms.findIdx (x.sameValue ·.target) < axioms.findIdx (y.sameValue ·.target) := by
  induction axioms with
  | nil => cases listed
  | cons b axioms ih =>
    obtain ⟨least, sorted'⟩ := List.pairwise_cons.mp sorted
    obtain ⟨first, others⟩ := List.forall_mem_cons.mp lower
    have other : y.sameValue b.target = false := by
      refine Bool.eq_false_iff.mpr fun aboutY => ?_
      have before : b.notAfter a = true := by
        rcases List.mem_cons.mp listed with rfl | later
        · simpa using AnnotatedAxiom.notAfter_total a a
        · exact least a later
      rw [first aboutY] at before
      cases before
    rw [List.findIdx_cons, List.findIdx_cons, other]
    cases aboutX : x.sameValue b.target with
    | true => exact Nat.zero_lt_succ _
    | false =>
      have later : a ∈ axioms := by
        refine (List.mem_cons.mp listed).resolve_left ?_
        rintro rfl
        rw [aboutX] at about
        cases about
      exact Nat.succ_lt_succ (ih sorted' later others)

private theorem findIdx_lt_of_leads {x y : Term} (leads : index.Leads property x y) :
    (index.forProperty property).findIdx (x.sameValue ·.target) <
      (index.forProperty property).findIdx (y.sameValue ·.target) := by
  obtain ⟨i, position, lower⟩ := leads
  obtain ⟨a, picked, placed⟩ := List.mem_filterMap.mp position
  obtain ⟨listed, about⟩ := List.mem_filter.mp picked
  simp only [Bool.and_eq_true, decide_eq_true_eq] at about
  refine findIdx_lt_findIdx (AnnotatedAxiom.inOrder_sorted _)
    (mem_forProperty.mpr ⟨listed, about.1⟩) about.2 ?_
  intro b member aboutY
  obtain ⟨listed', property'⟩ := mem_forProperty.mp member
  have candidate : b ∈ index.axioms.filter fun a => a.property = property && y.sameValue a.target :=
    List.mem_filter.mpr ⟨listed', by simp [property', aboutY]⟩
  cases placed' : b.refNum with
  | none => simp [AnnotatedAxiom.notAfter, placed, placed']
  | some j =>
    have gap : i < j := lower j (List.mem_filterMap.mpr ⟨b, candidate, placed'⟩)
    simp [AnnotatedAxiom.notAfter, placed, placed', gap]

/-- The values of a property are put in the order of the axioms about it; where these have different
positions, the order in which they were found does not matter. -/
theorem orderValues_arranged (index : AxiomIndex) (property : Iri) (values : List Term) :
    index.Arranged property values (index.orderValues property values) ∧
      ∀ other : AxiomIndex, index.axioms.Perm other.axioms →
        ((index.axioms.filter (·.property = property)).map (·.refNum)).Nodup →
        other.orderValues property values = index.orderValues property values := by
  have takes : Takes (index.forProperty property) values (index.orderValues property values) :=
    takes_arrange _ values
  have held : ∀ x ∈ values, ∃ u ∈ values, u.sameValue x = true :=
    fun x member => ⟨x, member, x.sameValue_refl⟩
  have free : ∀ y, index.isMatched property y = false →
      ∀ a ∈ index.forProperty property, y.sameValue a.target = false := by
    intro y unmatched a member
    obtain ⟨listed, about⟩ := mem_forProperty.mp member
    simpa [about] using List.any_eq_false.mp unmatched a listed
  refine ⟨⟨takes.perm, ?_, ?_, ?_, takes.copies⟩, ?_⟩
  · intro x member y _ leads
    exact takes.precedes (findIdx_lt_of_leads leads) (held x member)
  · intro x member y _ matched unmatched
    obtain ⟨a, listed, about⟩ := List.any_eq_true.mp matched
    simp only [Bool.and_eq_true, decide_eq_true_eq] at about
    refine takes.precedes ?_ (held x member)
    refine findIdx_lt_findIdx (AnnotatedAxiom.inOrder_sorted _)
      (mem_forProperty.mpr ⟨listed, about.1⟩) about.2 ?_
    intro b member' aboutY
    rw [free y unmatched b member'] at aboutY
    cases aboutY
  · exact takes.untaken fun y kept => free y (by simpa using kept)
  · intro other perm distinct
    unfold orderValues forProperty
    rw [AnnotatedAxiom.inOrder_eq_of_perm (perm.filter _) distinct]

namespace Recipe

def step : Iri := ⟨"e:step", by decide +kernel⟩

def text (t : String) : Term := .literal (.plain t)

def about (t : String) (position : Option Int) : AnnotatedAxiom :=
  ⟨⟨"e:cake", by decide +kernel⟩, step, text t, position, none⟩

/-- Baking has two positions, stirring has none, and an axiom is about a step that is not there. -/
def axioms : List AnnotatedAxiom :=
  [about "bake" (some 7), about "stir" none, about "mix" (some 2), about "bake" (some 3),
    about "cool" (some 1)]

def steps : List Term :=
  [text "serve", text "stir", text "bake", text "mix",
    .literal ⟨"bake", some xsdDateTime, none⟩, text "serve"]

end Recipe

theorem orderValues_arranged_recipe :
    let ordered := (AxiomIndex.mk Recipe.axioms).orderValues Recipe.step Recipe.steps
    Precedes ordered (Recipe.text "mix") (Recipe.text "bake") ∧
      Precedes ordered (Recipe.text "stir") (Recipe.text "serve") ∧
      (AxiomIndex.mk Recipe.axioms.reverse).orderValues Recipe.step Recipe.steps = ordered := by
  intro ordered
  obtain ⟨arranged, found⟩ :=
    orderValues_arranged (AxiomIndex.mk Recipe.axioms) Recipe.step Recipe.steps
  refine ⟨?_, ?_, ?_⟩
  · exact arranged.byPosition _ (by decide +kernel) _ (by decide +kernel) (by decide +kernel)
  · exact arranged.matchedFirst _ (by decide +kernel) _ (by decide +kernel) (by decide +kernel)
      (by decide +kernel)
  · exact found _ (List.reverse_perm _).symm (by decide +kernel)

end AxiomIndex

end ContentImport.Ontology
