import ContentImport.Proofs.Ontology.Nested
import ContentImport.Proofs.Ontology.XmlLiteral

/-!
Properties as they stand in a description. A property states its value, it is left out with a
notice, or it is passed over; its account says which. A reader comes from the start tag of a property
to its end tag whatever is in it, and the account is all that it keeps of it. So the properties of a
description are accounted for one by one.
-/

set_option autoImplicit false
set_option relaxedAutoImplicit false

namespace ContentImport.Ontology

open ContentImport.Markup (Branch Entities Event Node)

/-- What becomes of a property. -/
inductive Outcome where
  /-- It states its value. -/
  | states (object : Term)
  /-- It is left out, and there is a notice about it. -/
  | leftOut
  /-- It states nothing, and there is no notice about it. -/
  | passedOver

/-- Whether a property whose value is text has more in it than text. -/
def OpenTag.nests (tag : OpenTag) (content : List Node) : Bool :=
  !(Branch.children content).isEmpty || (tag.attribute? (rdf ++ "parseType")).isSome

/-- What becomes of a property, by its tag, the text directly in it and what else is in it. -/
def Outcome.ofProperty (base : Option String) (tag : OpenTag) (text : List Char)
    (content : List Node) : Except ReadFault Outcome :=
  match tag.kind with
  | .resource name => (Reference.resolve base name).map fun iri => states (.resource iri)
  | .blankNode => .ok passedOver
  | .markup => .ok (states (.literal (Stand.markupLiteral (written content))))
  | .text =>
    if tag.nests content then .ok leftOut
    else (Reader.literalOf base tag text).map fun l => states (.literal l)

/-- A property of a description, and what becomes of it. -/
structure Account where
  predicate : Iri
  outcome : Outcome

namespace Account

def statements (a : Account) : List Statement :=
  match a.outcome with
  | .states object => [⟨a.predicate, object⟩]
  | .leftOut | .passedOver => []

/-- The notices about a property of the description of a resource. -/
def notices (about : Option Iri) (a : Account) : List String :=
  match a.outcome with
  | .leftOut => [Reader.notice (.empty about) a.predicate]
  | .states _ | .passedOver => []

def ofProperty (base : Option String) (tag : OpenTag) (text : List Char) (content : List Node) :
    Except ReadFault Account := do
  let predicate ← Reader.nameIri tag.name
  let outcome ← Outcome.ofProperty base tag text content
  pure ⟨predicate, outcome⟩

/-- The account of a property in a document in which entities are declared. -/
def ofBranch (base : Option String) (entities : Entities) (b : Branch) :
    Except ReadFault Account := do
  let tag ← (OpenTag.ofTag entities b.tag).mapError .malformed
  let text ←
    if tag.kind = .text then (directText entities b.content).mapError .malformed else pure []
  ofProperty base tag text b.content

/-- An account of a property that takes its text to be any. -/
def Of (base : Option String) (b : Branch) (a : Account) : Prop :=
  ∃ entities tag text, OpenTag.ofTag entities b.tag = .ok tag ∧
    ofProperty base tag text b.content = .ok a

theorem ofProperty_eq_ok {base : Option String} {tag : OpenTag} {text : List Char}
    {content : List Node} {a : Account} :
    ofProperty base tag text content = .ok a ↔ Reader.nameIri tag.name = .ok a.predicate ∧
      Outcome.ofProperty base tag text content = .ok a.outcome := by
  obtain ⟨predicate, outcome⟩ := a
  unfold ofProperty
  rw [Attempt.bind_eq_ok]
  constructor
  · rintro ⟨_, named, made⟩
    obtain ⟨_, made, same⟩ := Attempt.bind_eq_ok.mp made
    cases same
    exact ⟨named, made⟩
  · rintro ⟨named, made⟩
    exact ⟨predicate, named, Attempt.bind_eq_ok.mpr ⟨outcome, made, rfl⟩⟩

private theorem ofProperty_text {tag : OpenTag} (other : tag.kind ≠ .text) (base : Option String)
    (content : List Node) (text : List Char) :
    ofProperty base tag text content = ofProperty base tag [] content := by
  unfold ofProperty Outcome.ofProperty
  cases kind : tag.kind with
  | text => exact absurd kind other
  | _ => rfl

theorem ofBranch_eq_ok {base : Option String} {entities : Entities} {b : Branch} {a : Account} :
    ofBranch base entities b = .ok a ↔ ∃ tag text, OpenTag.ofTag entities b.tag = .ok tag ∧
      (tag.kind = .text → directText entities b.content = .ok text) ∧
        ofProperty base tag text b.content = .ok a := by
  unfold ofBranch
  rw [Attempt.bind_eq_ok, exists_congr fun tag => and_congr_left' Attempt.mapError_eq_ok]
  refine exists_congr fun tag => ?_
  by_cases isText : tag.kind = .text
  · simp only [isText, if_true, Attempt.bind_eq_ok, Attempt.mapError_eq_ok, forall_const,
      exists_and_left]
  · simp [isText, Attempt.bind_eq_ok, pure, Except.pure, ofProperty_text isText base b.content]

end Account

namespace Reader

variable {r next last : Reader} {e : Element} {elements : List Element} {b : Branch}

def behind (r : Reader) (e : Element) (accounts : List Account) (entities : Entities) : Reader :=
  { r with
    place := .description { e with statements := e.statements ++ accounts.flatMap Account.statements }
    notices := Distinct.addAll r.notices (accounts.flatMap (Account.notices e.iri))
    entities }

private theorem behind_nil (placed : r.place = .description e) : r.behind e [] r.entities = r := by
  obtain ⟨place, base, bare, entities, notices⟩ := r
  obtain rfl := placed
  simp [behind, Distinct.addAll]

private theorem behind_behind (first others : List Account) (entities later : Entities) :
    (r.behind e first entities).behind
        { e with statements := e.statements ++ first.flatMap Account.statements } others later =
      r.behind e (first ++ others) later := by
  simp [behind, Distinct.addAll]

private theorem notice_empty (e : Element) (predicate : Iri) :
    notice (.empty e.iri) predicate = notice e predicate :=
  rfl

private theorem run_inner_pass
    (ran : (r.pass b.ending.isNone e).run b.inner = .ok (elements, last)) :
    elements = [] ∧ ∃ entities, last = { r with place := .description e, entities } := by
  obtain ⟨tag, content, ending, isWhole⟩ := b
  cases ending with
  | none =>
    obtain ⟨rfl, rfl⟩ := Prod.mk.inj (Except.ok.inj ran)
    exact ⟨rfl, _, rfl⟩
  | some name =>
    obtain ⟨_, inside, _, ranContent, ranEnd, rfl⟩ := run_append.mp ran
    obtain ⟨_, closing, rfl⟩ := run_singleton.mp ranEnd
    obtain ⟨rfl, entities, rfl⟩ := run_passes (Place.passes_passed e) content [] rfl ranContent
    obtain ⟨rfl, rfl⟩ := Prod.mk.inj (Except.ok.inj closing)
    exact ⟨rfl, entities, rfl⟩

private theorem run_inner_markup {predicate : Iri} {tag : OpenTag} (markup : tag.kind = .markup)
    (begun : r.propertyBegun e tag b.ending.isNone predicate = .ok next)
    (ran : next.run b.inner = .ok (elements, last)) :
    elements = [] ∧ ∃ entities,
      last = { r with
        place := .description (e.push predicate (.literal (Stand.markupLiteral (written b.content))))
        entities } := by
  rw [propertyBegun, markup] at begun
  obtain ⟨tag, content, ending, isWhole⟩ := b
  cases ending with
  | none =>
    obtain rfl := isWhole rfl
    obtain rfl := Except.ok.inj begun
    obtain ⟨rfl, rfl⟩ := Prod.mk.inj (Except.ok.inj ran)
    exact ⟨rfl, _, rfl⟩
  | some name =>
    obtain rfl := Except.ok.inj begun
    obtain ⟨_, inside, _, ranContent, ranEnd, rfl⟩ := run_append.mp ran
    obtain ⟨_, closing, rfl⟩ := run_singleton.mp ranEnd
    obtain ⟨rfl, entities, rfl⟩ :=
      run_passes (Place.passes_markup e predicate) content [] rfl ranContent
    obtain ⟨rfl, rfl⟩ := Prod.mk.inj (Except.ok.inj closing)
    exact ⟨rfl, entities, rfl⟩

private theorem run_inner_text {predicate : Iri} {tag : OpenTag} (isText : tag.kind = .text)
    (begun : r.propertyBegun e tag b.ending.isNone predicate = .ok next)
    (ran : next.run b.inner = .ok (elements, last)) :
    elements = [] ∧ ∃ text entities,
      endProperty { r with entities } e ⟨predicate, tag⟩ text
          (!(Branch.children b.content).isEmpty) = .ok last ∧
      (Event.Plain b.inner → directText r.entities b.content = .ok text) := by
  rw [propertyBegun, isText] at begun
  obtain ⟨_, content, ending, isWhole⟩ := b
  cases ending with
  | none =>
    obtain rfl := isWhole rfl
    obtain ⟨rfl, rfl⟩ := Prod.mk.inj (Except.ok.inj ran)
    exact ⟨rfl, [], r.entities, begun, fun _ => rfl⟩
  | some name =>
    obtain rfl := Except.ok.inj begun
    obtain ⟨_, inside, _, ranContent, ranEnd, rfl⟩ := run_append.mp ran
    obtain ⟨_, closing, rfl⟩ := run_singleton.mp ranEnd
    obtain ⟨rfl, text, entities, rfl, known⟩ := run_property content rfl ranContent
    obtain ⟨_, ended, same⟩ := Attempt.map_eq_ok.mp closing
    obtain ⟨rfl, rfl⟩ := Prod.mk.inj same
    refine ⟨rfl, text, entities, ended, fun plain => known fun event member => ?_⟩
    exact plain event (List.mem_append_left _ member)

private theorem run_inner {predicate : Iri} {tag : OpenTag}
    (begun : r.propertyBegun e tag b.ending.isNone predicate = .ok next)
    (ran : next.run b.inner = .ok (elements, last)) :
    elements = [] ∧ ∃ text outcome entities,
      Outcome.ofProperty r.base tag text b.content = .ok outcome ∧
      last = r.behind e [⟨predicate, outcome⟩] entities ∧
      (Event.Plain b.inner → tag.kind = .text →
        directText r.entities b.content = .ok text) := by
  unfold Outcome.ofProperty
  cases kind : tag.kind with
  | resource name =>
    rw [propertyBegun, kind] at begun
    obtain ⟨iri, resolved, rfl⟩ := Attempt.map_eq_ok.mp begun
    obtain ⟨rfl, entities, rfl⟩ := run_inner_pass ran
    refine ⟨rfl, [], .states (.resource iri), entities, ?_, rfl, fun _ => nofun⟩
    exact Attempt.map_eq_ok.mpr ⟨iri, resolved, rfl⟩
  | blankNode =>
    rw [propertyBegun, kind] at begun
    obtain rfl := Except.ok.inj begun
    obtain ⟨rfl, entities, rfl⟩ := run_inner_pass ran
    refine ⟨rfl, [], _, entities, rfl, ?_, fun _ => nofun⟩
    simp [behind, Account.statements, Account.notices, Distinct.addAll]
  | markup =>
    obtain ⟨rfl, entities, rfl⟩ := run_inner_markup kind begun ran
    exact ⟨rfl, [], _, entities, rfl, rfl, fun _ => nofun⟩
  | text =>
    obtain ⟨rfl, text, entities, ended, known⟩ := run_inner_text kind begun ran
    rcases endProperty_cases ended with ⟨more, rfl⟩ | ⟨alone, l, made, rfl⟩
    · have nests : tag.nests b.content = true := more
      refine ⟨rfl, text, .leftOut, entities, if_pos nests, ?_, fun plain _ => known plain⟩
      simp [behind, Account.statements, Account.notices, Distinct.addAll, notice_empty]
    · have single : tag.nests b.content = false := alone
      refine ⟨rfl, text, .states (.literal l), entities, ?_, rfl, fun plain _ => known plain⟩
      rw [single]
      exact Attempt.map_eq_ok.mpr ⟨l, made, rfl⟩

/-- Between the properties of a description, the next one is read up to its end, and what becomes of
it is the only change. -/
theorem run_branch_description (placed : r.place = .description e)
    (ran : r.run b.events = .ok (elements, last)) :
    elements = [] ∧ ∃ a entities, last = r.behind e [a] entities ∧ a.Of r.base b ∧
      (Event.Plain b.events → Account.ofBranch r.base r.entities b = .ok a) := by
  have decodes : r.place.decodes = true := by
    rw [placed]
    rfl
  obtain ⟨element, next, inner, stepped, ranInner, rfl⟩ := run_cons.mp ran
  obtain ⟨tag, decoded, taken⟩ := step_ofStart b.ending.isNone decodes stepped
  obtain ⟨rfl, begun⟩ : element = none ∧ r.beginProperty e tag b.ending.isNone = .ok next := by
    obtain ⟨place, base, bare, entities, notices⟩ := r
    obtain rfl := placed
    cases whole : b.ending.isNone <;>
    · rw [whole] at taken
      obtain ⟨_, begun, same⟩ := Attempt.map_eq_ok.mp taken
      obtain ⟨rfl, rfl⟩ := Prod.mk.inj same
      exact ⟨rfl, begun⟩
  rw [beginProperty_eq] at begun
  obtain ⟨predicate, named, begun⟩ := Attempt.bind_eq_ok.mp begun
  obtain ⟨rfl, text, outcome, entities, made, rfl, known⟩ := run_inner begun ranInner
  have accounted : Account.ofProperty r.base tag text b.content = .ok ⟨predicate, outcome⟩ :=
    Account.ofProperty_eq_ok.mpr ⟨named, made⟩
  refine ⟨rfl, _, entities, rfl, ⟨_, tag, text, decoded, accounted⟩, fun plain => ?_⟩
  have plainInner : Event.Plain b.inner :=
    fun event member => plain event (List.mem_cons_of_mem _ member)
  exact Account.ofBranch_eq_ok.mpr ⟨tag, text, decoded, known plainInner, accounted⟩

theorem run_properties (content : List Node) (placed : r.place = .description e)
    (ran : r.run (Node.eventsOf content) = .ok (elements, last)) :
    elements = [] ∧ ∃ accounts entities, last = r.behind e accounts entities ∧
      List.Forall₂ (fun b a => a.Of r.base b) (Branch.children content) accounts ∧
      (Event.Plain (Node.eventsOf content) →
        (Branch.children content).mapM (Account.ofBranch r.base r.entities) = .ok accounts) := by
  induction content generalizing r e elements with
  | nil =>
    obtain ⟨rfl, rfl⟩ := Prod.mk.inj (Except.ok.inj ran)
    exact ⟨rfl, [], r.entities, (behind_nil placed).symm, .nil, fun _ => rfl⟩
  | cons node rest ih =>
    obtain ⟨_, next, _, ranNode, ranRest, rfl⟩ := run_append.mp ran
    have begun := (inDescription (r := r) (by rw [placed]; rfl)).1
    have unchanged := (run_frame begun ranNode).2.2.2
    cases child : Branch.ofNode? node with
    | some b =>
      rw [Branch.events_of_ofNode? child] at ranNode
      obtain ⟨rfl, a, entities, rfl, accounted, exactly⟩ := run_branch_description placed ranNode
      obtain ⟨rfl, accounts, last, rfl, others, exactlyOthers⟩ := ih rfl ranRest
      have both := behind_behind (r := r) (e := e) [a] accounts entities last
      refine ⟨rfl, a :: accounts, last, both, ?_, fun plain => ?_⟩
      · rw [Branch.children_cons_some child]
        exact .cons accounted others
      · obtain ⟨plainNode, plainRest⟩ := Node.plain_eventsOf_cons.mp plain
        obtain rfl := unchanged plainNode
        rw [Branch.events_of_ofNode? child] at plainNode
        rw [Branch.children_cons_some child]
        exact Attempt.mapM_cons_ok (exactly plainNode) (exactlyOthers plainRest)
    | none =>
      cases node with
      | whole | element => cases child
      | quiet event isQuiet =>
        obtain ⟨_, stepped, rfl⟩ := run_singleton.mp ranNode
        obtain ⟨rfl, rfl⟩ := step_between (.inr (.inr ⟨e, placed⟩)) isQuiet stepped
        obtain ⟨rfl, accounts, last, rfl, others, exactly⟩ :=
          ih (r := { r with entities := declare r.entities event }) placed ranRest
        refine ⟨rfl, accounts, last, rfl, others, fun plain => ?_⟩
        obtain ⟨plainNode, plainRest⟩ := Node.plain_eventsOf_cons.mp plain
        have made := exactly plainRest
        rw [unchanged plainNode] at made
        exact made

end Reader

end ContentImport.Ontology
